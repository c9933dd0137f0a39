/-!
# Sets of code points

A class of characters is written down as a list of runs.  A run takes every `stride`-th code point
from `first` to `last`: alphabets that alternate between capital and small letters have stride two,
everything else stride one.
-/

namespace HornPlan.Text

/-- The code points `first`, `first + stride`, …, up to `last`. -/
structure Run where
  first : Nat
  last : Nat
  stride : Nat

/-- Membership in a run. -/
def Run.contains (run : Run) (point : Nat) : Bool :=
  run.first ≤ point && point ≤ run.last && (point - run.first) % run.stride == 0

/-- A character belongs to a class when one of the runs holds its code point. -/
def inRuns (runs : List Run) (c : Char) : Bool :=
  runs.any (·.contains c.toNat)

end HornPlan.Text
