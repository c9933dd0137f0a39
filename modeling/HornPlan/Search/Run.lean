import HornPlan.Search.Step

/-!
# Running a search

A run takes steps until the search halts, a stop condition is met, or a limit is hit.  The limit on
nodes counts every step the search ever took, also before it was interrupted.  A run that empties
the frontier with its last permitted step still says so.

A limit on the time is kept with a clock, which is read before every step.  What it says is up to
the machine, so the limits of a run name the answer to every reading: whether the time is up.  A
limit that is over at once, or never, is the case of a clock whose answers are all the same
(`Limits`).

A run may keep checkpoints: it then remembers the search as it was after the last step that did not
fail.
-/

namespace HornPlan

/-- When a run ends early, with the answers of the clock. -/
structure TimedLimits where
  maxNodes : Count
  late : (reading : Nat) → Except Error Bool
  stop : Search → Except Error Bool

/-- When a run ends early, where the clock has one answer. -/
structure Limits where
  maxNodes : Count
  outOfTime : Except Error Bool
  stop : Search → Except Error Bool

/-- The limits with that answer to every reading. -/
def Limits.timed (limits : Limits) : TimedLimits :=
  ⟨limits.maxNodes, fun _ => limits.outOfTime, limits.stop⟩

/-- What a run leaves behind, with its last checkpoint. -/
structure RunOutcome (M : Type) extends Outcome M where
  checkpoint : Option Search

namespace Search

variable {M : Type}

/-- The end of a run: an empty frontier halts a search that has not halted. -/
def finish (search : Search) (memory : M) (printed : String) (checkpoint : Option Search) :
    RunOutcome M :=
  if !search.halted && search.frontier.isEmpty then
    let search := search.halt .frontierEmpty
    ⟨⟨search, memory, printed, none⟩, some search⟩
  else ⟨⟨search, memory, printed, none⟩, checkpoint⟩

/-- What ends a run before its next step, and whether something does. -/
def stopCause? (limits : TimedLimits) (reading : Nat) (search : Search) :
    Except Error (Option HaltCause) := do
  if ← limits.stop search then return some .stopConditionMet
  if ← limits.late reading then return some .timeLimitExceeded
  return none

/-- Takes at most `rounds` steps; `reading` numbers the next look at the clock. -/
def runFor (p : Problem) (policy : Policy M) (bound : Option Count) (verbose : Bool)
    (limits : TimedLimits) :
    (rounds reading : Nat) → Search → M → (printed : String) → Option Search → RunOutcome M
  | 0, _, search, memory, printed, checkpoint => search.finish memory printed checkpoint
  | rounds + 1, reading, search, memory, printed, checkpoint =>
    match search.step.below limits.maxNodes with
    | .error error => ⟨⟨search, memory, printed, some error⟩, checkpoint⟩
    | .ok false => search.finish memory printed checkpoint
    | .ok true =>
      if search.halted then search.finish memory printed checkpoint
      else
        match stopCause? limits reading search with
        | .error error => ⟨⟨search, memory, printed, some error⟩, checkpoint⟩
        | .ok (some cause) => (search.halt cause).finish memory printed checkpoint
        | .ok none =>
          let outcome := search.advance p policy bound verbose memory
          match outcome.error with
          -- a step that fails writes no checkpoint
          | some _ => ⟨{ outcome with printed := printed ++ outcome.printed }, checkpoint⟩
          | none =>
            runFor p policy bound verbose limits rounds (reading + 1) outcome.search outcome.memory
              (printed ++ outcome.printed) (some outcome.search)

/-- Runs a search within limits and against a clock. -/
def runTimed (p : Problem) (policy : Policy M) (bound : Option Count) (verbose : Bool)
    (limits : TimedLimits) (search : Search) (memory : M) : RunOutcome M :=
  search.runFor p policy bound verbose limits (search.step.roundsBelow limits.maxNodes) 0
    memory "" none

/-- Runs a search within limits. -/
def run (p : Problem) (policy : Policy M) (bound : Option Count) (verbose : Bool) (limits : Limits)
    (search : Search) (memory : M) : RunOutcome M :=
  search.runTimed p policy bound verbose limits.timed memory

end Search

end HornPlan
