import HornPlan.Error

/-!
# Counts

A search counts its steps and the depths of its nodes, and keeps to limits.  A search that was read
from a file may have anything in the place of such a number, and so may what a caller asks for.  It
is kept as it is; a number with a fraction or a truth value still counts, and anything else fails as
soon as it is counted from or compared with a number.
-/

namespace HornPlan

/-- A whole number, or what a file has in its place. -/
inductive Count
  | whole (n : Int)
  | foreign (value : Json) (notWhole : value.int? = none)

namespace Count

instance (n : Nat) : OfNat Count n :=
  ⟨whole n⟩

/-- Nothing at all in the place of a number. -/
def missing : Count :=
  foreign (.arr []) rfl

/-- A count as a JSON document. -/
def toData : Count → Json
  | whole n => .int n
  | foreign value _ => value

/-- Reads a count. -/
def ofData (value : Json) : Count :=
  match h : value.int? with
  | some n => whole n
  | none => foreign value h

theorem ofData_toData (c : Count) : ofData c.toData = c := by
  cases c with
  | whole n => rfl
  | foreign value h =>
    unfold ofData toData
    split
    · rename_i n hn
      rw [h] at hn
      cases hn
    · rfl

/-- The text of a count. -/
def text (c : Count) : String :=
  c.toData.shownBare

/-- The count after a count. -/
def next : Count → Except Error Count
  | whole n => .ok (whole (n + 1))
  | foreign (.bool b) _ => .ok (whole (b.toInt + 1))
  | foreign (.real x) _ => .ok (ofData (.real x.succ))
  | foreign _ _ => .error .wrongType

/-- How a count stands to another. -/
def standing : (c d : Count) → Except Error Comparison
  | whole m, whole n => .ok (.ofOrdering (compare m n))
  | c, d =>
    match c.toData.compare? d.toData with
    | some comparison => .ok comparison
    | none => .error .wrongType

/-- A count is less than another. -/
def below (c d : Count) : Except Error Bool := do
  return (← c.standing d) = .less

/-- A count is at most another. -/
def atMost (c d : Count) : Except Error Bool := do
  let standing ← c.standing d
  return standing = .less || standing = .equal

/-- A count is at least another. -/
def atLeast (c d : Count) : Except Error Bool :=
  d.atMost c

/-- A bound on how many times a count can go on before it is no longer below a limit.  A number with
a fraction may be so large that one more changes nothing, so that only the end of a search stops
it. -/
def roundsBelow : (c limit : Count) → Nat
  | whole n, whole limit => (limit - n).toNat
  | _, _ => Nat.pow 2 60

/-- The limit that lets a count go on once. -/
def limitOnce (c : Count) : Count :=
  c.next.toOption.getD c

/-- Nothing has been counted. -/
def isZero : Count → Bool
  | whole n => n == 0
  | foreign value _ => value.same (.int 0)

end Count

end HornPlan
