import HornPlan.Proofs.Runs
import HornPlan.Proofs.Plans

/-!
# Honest searches

A search that was read from a file may hold paths that lead nowhere.  The paths of a search are as
good as those it began with: where all of them are those of successors and the solution reaches the
goal (`Honest`), no step makes it otherwise, whether it fails or not (`Honest.advance`), and neither
does a planning (`Honest.planTimed`).  So every search that a problem can come to is honest
(`Reachable.honest`).
-/

namespace HornPlan

namespace Search

variable {p : Problem} {s : State} {search next : Search} {M : Type} {policy : Policy M}
  {memory : M} {bound : Option Count} {verbose : Bool} {printed : String}

/-! ## Honest searches -/

/-- A search begins at a state, the actions of every node lead from there to its state, and the
solution reaches the goal. -/
structure Honest (p : Problem) (s : State) (search : Search) : Prop where
  initialState : search.initialState = s
  leads : ∀ n ∈ search.frontier, p.Leads s n.actions n.state
  solution : ∀ n, search.solution = some n → p.Leads s n.actions n.state ∧
    p.reaches n.state = .ok true

theorem honest_start (p : Problem) (s : State) : Honest p s (start s) := by
  refine ⟨rfl, fun n hn => ?_, nofun⟩
  obtain rfl := List.mem_singleton.mp hn
  exact .nil s

theorem Honest.halt (h : Honest p s search) (cause : HaltCause) : Honest p s (search.halt cause) :=
  ⟨h.initialState, h.leads, h.solution⟩

theorem Honest.record (h : Honest p s search) {entry : Except Error HistoryEntry}
    {error : Option Error} (hrecord : search.record entry = (next, error)) : Honest p s next := by
  obtain ⟨history, rfl⟩ := search_of_record hrecord
  exact ⟨h.initialState, h.leads, h.solution⟩

/-- Whatever a step leaves behind, new nodes belong to successors of the node that was taken. -/
theorem Honest.leaves (h : Honest p s search) {error : Option Error}
    (hleaves : Leaves p search next error) : Honest p s next := by
  cases hleaves with
  | untouched e => exact h
  | exhausted => exact h.halt .frontierEmpty
  | taken e _ hrest | looked e _ hrest =>
      exact ⟨h.initialState, fun n hn => h.leads n (hrest hn), h.solution⟩
  | @found node _ _ _ _ hnode hrest _ hreaches hrecord =>
      refine Honest.record ?_ hrecord
      refine ⟨h.initialState, fun n hn => h.leads n (hrest hn), fun n hn => ?_⟩
      obtain rfl := Option.some.inj hn
      exact ⟨h.leads node hnode, hreaches⟩
  | @expanded node _ _ _ cut _ _ _ _ hnode hrest _ hl _ hnew hrecord =>
      refine Honest.record ?_ hrecord
      refine ⟨h.initialState,
        List.forall_mem_append.mpr ⟨fun n hn => h.leads n (hrest hn), fun n hn => ?_⟩, h.solution⟩
      obtain ⟨a, hmem, hactions⟩ := hnew n hn
      rw [hactions]
      cases cut with
      | true =>
          obtain rfl := Except.ok.inj hl
          exact absurd hmem List.not_mem_nil
      | false => exact (h.leads node hnode).snoc hl hmem

/-- **A step keeps a search honest**, whether it fails or not. -/
theorem Honest.advance (h : Honest p s search) :
    Honest p s (search.advance p policy bound verbose memory).search :=
  h.leaves (leaves_of_advance rfl)

/-- **A run keeps a search honest.** -/
theorem Honest.runFor (h : Honest p s search) {limits : TimedLimits} {rounds reading : Nat}
    {checkpoint : Option Search} :
    Honest p s
      (search.runFor p policy bound verbose limits rounds reading memory printed
      checkpoint).search :=
  invariant_of_runFor (fun _ _ h => h.advance) (fun _ cause h => h.halt cause) h

/-- **Every search that a problem can come to is honest.** -/
theorem Reachable.honest (h : Reachable p search) : Honest p search.initialState search := by
  induction h with
  | start => exact honest_start p _
  | advance policy bound verbose memory _ ih =>
      rw [(advance_spec rfl).1]
      exact ih.advance
  | halt cause _ ih => exact ih.halt cause

/-- **A planning keeps a search honest**, whatever it answers. -/
theorem Honest.planTimed (h : Honest p s search) (request : TimedRequest) (strategy : Strategy) :
    Honest p s (p.planTimed request strategy search).search := by
  unfold Problem.planTimed
  split
  · exact h
  · exact h.halt .goalUnreachable
  · dsimp only
    split
    · exact h.runFor
    · exact h.runFor

end Search

end HornPlan
