import HornPlan.Search.Run
import HornPlan.Proofs.Problems
import Mathlib.Logic.Relation

/-!
# Steps and runs of a search

A step of a running search either finds a goal node, or continues: the node that the policy takes
leaves the frontier, and unless it stands at the depth bound its successors are looked at one by one
(`Adds`).  This file says once what a step that does not fail can do, with all that it puts down
(`steps_of_advance`).  Under a bound that is a number a run is a sequence of such steps with one of
four ends (`runFor_spec`).  Everything else about runs is an invariant of `Continues`, which leaves
out the history and the count of the steps.

The first one is `Sound`: the actions of every node on the frontier lead to its state, and there are
at most as many of them as the bound permits.
-/

namespace HornPlan

theorem Count.atMost_whole (m n : Int) :
    (Count.whole m).atMost (.whole n) = .ok (decide (m ≤ n)) := by
  rw [atMost, standing, ok_bind]
  rcases lt_trichotomy m n with hlt | rfl | hgt
  · rw [compare_lt_iff_lt.mpr hlt, decide_eq_true hlt.le]
    rfl
  · rw [compare_eq_iff_eq.mpr rfl, decide_eq_true le_rfl]
    rfl
  · rw [compare_gt_iff_gt.mpr hgt, decide_eq_false hgt.not_ge]
    rfl

theorem Count.below_whole (m n : Int) :
    (Count.whole m).below (.whole n) = .ok (decide (m < n)) := by
  rw [below, standing, ok_bind]
  rcases lt_trichotomy m n with hlt | rfl | hgt
  · rw [compare_lt_iff_lt.mpr hlt, decide_eq_true hlt]
    rfl
  · rw [compare_eq_iff_eq.mpr rfl, decide_eq_false (lt_irrefl _)]
    rfl
  · rw [compare_gt_iff_gt.mpr hgt, decide_eq_false hgt.not_gt]
    rfl

namespace Search

variable {p : Problem} {M : Type} {policy : Policy M} {b : Nat}

/-! ## Successors -/

/-- How the successors of a node are looked at: the new nodes, and how the states generated so far
and the memory of the policy change. -/
inductive Adds (policy : Policy M) (parent : Node) : (seen : List (State × Count)) → (memory : M) →
    List (Action × State) → (new : List Node) → (seen' : List (State × Count)) →
    (memory' : M) → Prop
  | nil {seen : List (State × Count)} {memory : M} :
      Adds policy parent seen memory [] [] seen memory
  | known {seen seen' : List (State × Count)} {memory memory' : M} {a : Action} {s : State}
      {l : List (Action × State)} {new : List Node}
      (hknown : seenBy seen s (parent.depth + 1) = .ok true)
      (h : Adds policy parent seen memory l new seen' memory') :
      Adds policy parent seen memory ((a, s) :: l) new seen' memory'
  | pruned {seen seen' : List (State × Count)} {memory memory' : M} {a : Action} {s : State}
      {l : List (Action × State)} {new : List Node} {step : Count} {search : Search}
      {reply : Reply M Bool} (hfresh : seenBy seen s (parent.depth + 1) = .ok false)
      (hreply : policy.prune memory ⟨s, parent.actions ++ [a], step⟩ search = reply)
      (hpruned : reply.answer = .ok true)
      (h : Adds policy parent (recordDepth seen s (.whole (parent.depth + 1)))
        reply.memory l new seen' memory') :
      Adds policy parent seen memory ((a, s) :: l) new seen' memory'
  | kept {seen seen' : List (State × Count)} {memory memory' : M} {a : Action} {s : State}
      {l : List (Action × State)} {new : List Node} {step : Count} {search : Search}
      {reply : Reply M Bool} (hfresh : seenBy seen s (parent.depth + 1) = .ok false)
      (hreply : policy.prune memory ⟨s, parent.actions ++ [a], step⟩ search = reply)
      (hkept : reply.answer = .ok false)
      (h : Adds policy parent (recordDepth seen s (.whole (parent.depth + 1)))
        reply.memory l new seen' memory') :
      Adds policy parent seen memory ((a, s) :: l)
      (⟨s, parent.actions ++ [a], step⟩ :: new) seen' memory'

/-- Looking at all successors without failing changes nothing but what has been generated. -/
theorem addSuccessors_cases {verbose : Bool} {parent : Node} {l : List (Action × State)}
    {fresh nodes : List Node} {search : Search} {memory : M} {printed : String}
    {outcome : Outcome M}
    (h : addSuccessors policy verbose parent fresh search memory printed l = (outcome, nodes))
    (herror : outcome.error = none) :
    ∃ new seen', nodes = fresh ++ new ∧ outcome.search = { search with seen := seen' } ∧
      Adds policy parent search.seen memory l new seen' outcome.memory := by
  induction l generalizing fresh search memory printed with
  | nil =>
      obtain ⟨rfl, rfl⟩ := Prod.mk.inj h
      exact ⟨[], search.seen, (List.append_nil fresh).symm, rfl, .nil⟩
  | cons successor l ih =>
      obtain ⟨a, s⟩ := successor
      rw [addSuccessors] at h
      split at h
      · obtain ⟨rfl, rfl⟩ := Prod.mk.inj h
        cases herror
      · rename_i hknown
        obtain ⟨new, seen', hnodes, hsearch, hadds⟩ := ih h
        exact ⟨new, seen', hnodes, hsearch, .known hknown hadds⟩
      · rename_i hfresh
        dsimp only at h
        split at h
        · obtain ⟨rfl, rfl⟩ := Prod.mk.inj h
          cases herror
        · rename_i pruned hreply
          split at h
          · obtain ⟨rfl, rfl⟩ := Prod.mk.inj h
            cases herror
          -- the child is discarded, or it stands before the nodes of the other successors
          split at h
          · rename_i hpruned
            obtain ⟨new, seen', hnodes, hsearch, hadds⟩ := ih h
            rw [hpruned] at hreply
            exact ⟨new, seen', hnodes, hsearch, .pruned hfresh rfl hreply hadds⟩
          · rename_i hkept
            obtain ⟨new, seen', hnodes, hsearch, hadds⟩ := ih h
            rw [Bool.not_eq_true] at hkept
            rw [hkept] at hreply
            exact ⟨_ :: new, seen', by rw [hnodes, List.append_assoc]; rfl, hsearch,
              .kept hfresh rfl hreply hadds⟩

theorem Adds.exists_of_mem {parent : Node} {seen seen' : List (State × Count)} {memory memory' : M}
    {l : List (Action × State)} {new : List Node}
    (h : Adds policy parent seen memory l new seen' memory') {n : Node} (hn : n ∈ new) :
    ∃ a, (a, n.state) ∈ l ∧ n.actions = parent.actions ++ [a] := by
  induction h with
  | nil => cases hn
  | known _ _ ih | pruned _ _ _ _ ih =>
      obtain ⟨a, hmem, hactions⟩ := ih hn
      exact ⟨a, List.mem_cons_of_mem _ hmem, hactions⟩
  | @kept _ _ _ _ a _ _ _ _ _ _ _ _ _ _ ih =>
      rcases List.mem_cons.mp hn with rfl | hn
      · exact ⟨a, List.mem_cons_self, rfl⟩
      · obtain ⟨a, hmem, hactions⟩ := ih hn
        exact ⟨a, List.mem_cons_of_mem _ hmem, hactions⟩

theorem Adds.depth_eq {parent : Node} {seen seen' : List (State × Count)} {memory memory' : M}
    {l : List (Action × State)} {new : List Node}
    (h : Adds policy parent seen memory l new seen' memory') {n : Node} (hn : n ∈ new) :
    n.depth = parent.depth + 1 := by
  obtain ⟨a, -, hactions⟩ := h.exists_of_mem hn
  rw [Node.depth, hactions, List.length_append]
  rfl

/-! ## Steps -/

/-- The policy takes a node from a frontier. -/
structure Takes (policy : Policy M) (memory : M) (frontier : List Node) (node : Node)
    (rest : List Node) (memory' : M) : Prop where
  chosen : ∃ index, (policy.choose memory frontier).answer = .ok index ∧
    frontier[index]? = some node ∧ rest = frontier.eraseIdx index
  memory_eq : memory' = (policy.choose memory frontier).memory

theorem Takes.mem {memory memory' : M} {frontier rest : List Node} {node : Node}
    (h : Takes policy memory frontier node rest memory') : node ∈ frontier := by
  obtain ⟨index, -, hnode, -⟩ := h.chosen
  exact List.mem_of_getElem? hnode

theorem Takes.subset {memory memory' : M} {frontier rest : List Node} {node : Node}
    (h : Takes policy memory frontier node rest memory') : rest ⊆ frontier := by
  obtain ⟨index, -, -, rfl⟩ := h.chosen
  exact List.eraseIdx_subset

theorem Takes.eq_or_mem {memory memory' : M} {frontier rest : List Node} {node n : Node}
    (h : Takes policy memory frontier node rest memory') (hn : n ∈ frontier) :
    n = node ∨ n ∈ rest := by
  obtain ⟨index, -, hnode, rfl⟩ := h.chosen
  obtain ⟨i, hi, rfl⟩ := List.getElem_of_mem hn
  by_cases heq : i = index
  · subst heq
    exact Or.inl (Option.some.inj ((List.getElem?_eq_getElem hi).symm.trans hnode))
  · exact Or.inr (List.mem_eraseIdx_iff_getElem.mpr ⟨i, hi, heq, rfl⟩)

/-- **What a step does that takes a node and does not fail**: the node reaches the goal, stands at
the bound, or is expanded. -/
inductive Steps (p : Problem) (policy : Policy M) (bound : Option Count) (search : Search)
    (memory : M) :
    Search → M → Prop
  | found {memory' : M} {node : Node} {rest : List Node} {step : Count} {history : History}
      (htakes : Takes policy memory search.frontier node rest memory')
      (hstep : search.step.next = .ok step) (hreaches : p.reaches node.state = .ok true)
      (hhistory : search.history.add
        ({ search with frontier := rest, step := step }.expansionOf node [] true) = .ok history) :
      Steps p policy bound search memory
        { search.halt .goalReached with
          frontier := rest, step := step, history := history, solution := some node } memory'
  | cut {memory' : M} {node : Node} {rest : List Node} {step : Count} {history : History}
      (htakes : Takes policy memory search.frontier node rest memory')
      (hstep : search.step.next = .ok step) (hreaches : p.reaches node.state = .ok false)
      (hbound : atBound bound node = .ok true)
      (hhistory : search.history.add
        ({ search with frontier := rest, step := step }.expansionOf node [] false) = .ok history) :
      Steps p policy bound search memory
        { search with frontier := rest, step := step, history := history } memory'
  | expanded {memory' memory'' : M} {node : Node} {rest new : List Node} {step : Count}
      {history : History} {l : List (Action × State)} {seen' : List (State × Count)}
      (htakes : Takes policy memory search.frontier node rest memory')
      (hstep : search.step.next = .ok step) (hreaches : p.reaches node.state = .ok false)
      (hbound : atBound bound node = .ok false) (hl : p.successors node.state = .ok l)
      (hadds : Adds policy node search.seen memory' l new seen' memory'')
      (hhistory : search.history.add
        ({ search with frontier := rest ++ new, step := step }.expansionOf node new false) =
        .ok history) :
      Steps p policy bound search memory
        { search with frontier := rest ++ new, seen := seen', step := step, history := history }
        memory''

theorem record_cases {search next : Search} {entry : Except Error HistoryEntry}
    (h : search.record entry = (next, none)) :
    ∃ history, search.history.add entry = .ok history ∧
    next = { search with history := history } := by
  unfold record at h
  split at h
  · rename_i history hhistory
    obtain ⟨rfl, -⟩ := Prod.mk.inj h
    exact ⟨history, hhistory, rfl⟩
  · cases (Prod.mk.inj h).2

section

variable {search : Search} {memory memory' : M} {node : Node} {rest : List Node} {step : Count}
  {bound : Option Count} {verbose : Bool} {printed : String} {outcome : Outcome M}

/-- A node that is not the goal is left at the bound and expanded above it. -/
theorem steps_of_expandBelow (htakes : Takes policy memory search.frontier node rest memory')
    (hstep : search.step.next = .ok step) (hreaches : p.reaches node.state = .ok false)
    (h : expandBelow p policy bound verbose node { search with frontier := rest, step := step }
      memory' printed = outcome)
    (herror : outcome.error = none) :
    Steps p policy bound search memory outcome.search outcome.memory := by
  unfold expandBelow at h
  split at h
  · subst h
    cases herror
  · rename_i cut hbound
    dsimp only at h
    -- a node at the bound is put down as one without successors
    cases cut with
    | true =>
        simp only [if_true, addSuccessors, List.append_nil] at h
        split at h
        · subst h
          cases herror
        · rename_i hrecord
          obtain ⟨history, hhistory, rfl⟩ := record_cases hrecord
          subst h
          exact .cut htakes hstep hreaches hbound hhistory
    | false =>
        simp only [Bool.false_eq_true, if_false] at h
        split at h
        · subst h
          cases herror
        · rename_i l hl
          split at h
          · subst h
            cases herror
          · rename_i hadded
            obtain ⟨new, seen', hnodes, hsearch, hadds⟩ := addSuccessors_cases hadded rfl
            rw [List.nil_append] at hnodes
            dsimp only at hsearch
            subst hnodes hsearch
            split at h
            · subst h
              cases herror
            · rename_i hrecord
              obtain ⟨history, hhistory, rfl⟩ := record_cases hrecord
              subst h
              exact .expanded htakes hstep hreaches hbound hl hadds hhistory

theorem steps_of_expandNode (htakes : Takes policy memory search.frontier node rest memory')
    (hstep : search.step.next = .ok step)
    (h : expandNode p policy bound verbose node { search with frontier := rest, step := step }
      memory' printed = outcome)
    (herror : outcome.error = none) :
    Steps p policy bound search memory outcome.search outcome.memory := by
  unfold expandNode at h
  split at h
  · subst h
    cases herror
  · rename_i hreaches
    dsimp only at h
    split at h
    · subst h
      cases herror
    · rename_i hrecord
      obtain ⟨history, hhistory, rfl⟩ := record_cases hrecord
      subst h
      exact .found htakes hstep hreaches hhistory
  · rename_i hreaches
    exact steps_of_expandBelow htakes hstep hreaches h herror

/-- **What a step that does not fail can do**: a search without nodes halts, and any other takes a
node. -/
theorem steps_of_advance (h : search.advance p policy bound verbose memory = outcome)
    (herror : outcome.error = none) :
    (search.frontier = [] ∧ outcome.search = search.halt .frontierEmpty ∧ outcome.memory = memory) ∨
      Steps p policy bound search memory outcome.search outcome.memory := by
  unfold advance at h
  split at h
  · rename_i hempty
    subst h
    exact Or.inl ⟨List.isEmpty_iff.mp hempty, rfl, rfl⟩
  · refine Or.inr ?_
    dsimp only at h
    split at h
    · subst h
      cases herror
    · rename_i index hindex
      split at h
      · subst h
        cases herror
      · rename_i node hnode
        split at h
        · subst h
          cases herror
        · rename_i step hstep
          have htakes : Takes policy memory search.frontier node (search.frontier.eraseIdx index)
              (policy.choose memory search.frontier).memory := ⟨⟨index, hindex, hnode, rfl⟩, rfl⟩
          split at h
          · subst h
            cases herror
          · exact steps_of_expandNode htakes hstep h herror

end

/-! ## Steps under a bound -/

theorem atBound_whole (b : Int) (node : Node) :
    atBound (some (.whole b)) node = .ok (decide (b ≤ node.depth)) := by
  rw [atBound, Count.atLeast, Count.atMost_whole]

/-- A step after which the search goes on.  A node at the bound is not expanded. -/
inductive Continues (p : Problem) (policy : Policy M) (b : Nat) : Search × M → Search × M → Prop
  | cut {search : Search} {memory memory' : M} {node : Node} {rest : List Node} {step : Count}
      {history : History} (htakes : Takes policy memory search.frontier node rest memory')
      (hreaches : p.reaches node.state = .ok false) (hdepth : b ≤ node.depth) :
      Continues p policy b (search, memory)
        ({ search with frontier := rest, step := step, history := history }, memory')
  | expanded {search : Search} {memory memory' memory'' : M} {node : Node} {rest new : List Node}
      {step : Count} {history : History} {l : List (Action × State)} {seen' : List (State × Count)}
      (htakes : Takes policy memory search.frontier node rest memory')
      (hreaches : p.reaches node.state = .ok false) (hdepth : node.depth < b)
      (hl : p.successors node.state = .ok l)
      (hadds : Adds policy node search.seen memory' l new seen' memory'') :
      Continues p policy b (search, memory)
        ({ search with frontier := rest ++ new, seen := seen', step := step, history := history },
          memory'')

/-- A step that finds a goal node. -/
inductive Finds (p : Problem) (policy : Policy M) (search : Search) (memory : M) : Search → Prop
  | intro {memory' : M} {node : Node} {rest : List Node} {step : Count} {history : History}
      (htakes : Takes policy memory search.frontier node rest memory')
      (hreaches : p.reaches node.state = .ok true) :
      Finds p policy search memory
        { search.halt .goalReached with
          frontier := rest, step := step, history := history, solution := some node }

theorem Finds.halted {search last : Search} {memory : M} (h : Finds p policy search memory last) :
    last.halted = true := by
  cases h
  rfl

theorem Steps.cases {search next : Search} {memory memory' : M}
    (h : Steps p policy (some (.whole b)) search memory next memory') :
    Finds p policy search memory next ∨ Continues p policy b (search, memory) (next, memory') := by
  cases h with
  | found htakes _ hreaches => exact Or.inl (.intro htakes hreaches)
  | @cut _ node _ _ _ htakes _ hreaches hbound =>
      rw [atBound_whole] at hbound
      have hdepth : (b : Int) ≤ node.depth := of_decide_eq_true (Except.ok.inj hbound)
      exact Or.inr (.cut htakes hreaches (by exact_mod_cast hdepth))
  | @expanded _ _ node _ _ _ _ _ _ htakes _ hreaches hbound hl hadds =>
      rw [atBound_whole] at hbound
      have hdepth : ¬(b : Int) ≤ node.depth := of_decide_eq_false (Except.ok.inj hbound)
      exact Or.inr (.expanded htakes hreaches (by omega) hl hadds)

theorem advance_cases {search : Search} {memory : M} {verbose : Bool} {outcome : Outcome M}
    (h : search.advance p policy (some (.whole b)) verbose memory = outcome)
    (herror : outcome.error = none) :
    (search.frontier = [] ∧ outcome.search = search.halt .frontierEmpty) ∨
      Finds p policy search memory outcome.search ∨
      Continues p policy b (search, memory) (outcome.search, outcome.memory) := by
  rcases steps_of_advance h herror with ⟨hempty, hhalt, -⟩ | hsteps
  · exact Or.inl ⟨hempty, hhalt⟩
  · exact Or.inr hsteps.cases

/-! ## Runs -/

/-- A search that has not halted. -/
structure Running (search : Search) : Prop where
  haltFlag : search.haltFlag = .plain false
  haltReason : search.haltReason = .unknown
  solution : search.solution = none

theorem running_start (s : State) : (start s).Running :=
  ⟨rfl, rfl, rfl⟩

theorem Running.halted {search : Search} (h : search.Running) : search.halted = false := by
  rw [Search.halted, h.haltFlag]
  rfl

theorem Running.continues {search next : Search} {memory memory' : M} (h : search.Running)
    (hstep : Continues p policy b (search, memory) (next, memory')) : next.Running := by
  cases hstep with
  | cut => exact ⟨h.haltFlag, h.haltReason, h.solution⟩
  | expanded => exact ⟨h.haltFlag, h.haltReason, h.solution⟩

/-- The ends of a run: a limit on the steps is hit, the run is stopped from outside, no node is
left, or a goal node is found. -/
inductive Ends (p : Problem) (policy : Policy M) (search : Search) (memory : M) : Search → Prop
  | limit (h : search.frontier ≠ []) : Ends p policy search memory search
  | stopped (cause : HaltCause) (h : cause = .stopConditionMet ∨ cause = .timeLimitExceeded) :
      Ends p policy search memory (search.halt cause)
  | exhausted (h : search.frontier = []) : Ends p policy search memory (search.halt .frontierEmpty)
  | found {last : Search} (h : Finds p policy search memory last) : Ends p policy search memory last

theorem finish_of_halted {search : Search} {memory : M} {printed : String}
    {checkpoint : Option Search} (h : search.halted = true) :
    (search.finish memory printed checkpoint).search = search := by
  rw [finish, h]
  rfl

theorem Running.finish {search : Search} {memory : M} (h : search.Running) (printed : String)
    (checkpoint : Option Search) :
    Ends p policy search memory (search.finish memory printed checkpoint).search := by
  rw [Search.finish, h.halted]
  by_cases hempty : search.frontier = []
  · rw [hempty]
    exact .exhausted hempty
  · rw [List.isEmpty_eq_false_iff.mpr hempty]
    exact .limit hempty

theorem runFor_of_halted {search : Search} {memory : M} {limits : TimedLimits} {verbose : Bool}
    {rounds reading : Nat} {bound : Option Count} {printed : String} {checkpoint : Option Search}
    {run : RunOutcome M}
    (hrun : search.runFor p policy bound verbose limits rounds reading memory printed checkpoint =
      run)
    (herror : run.error = none) (h : search.halted = true) : run.search = search := by
  cases rounds with
  | zero =>
      subst hrun
      exact finish_of_halted h
  | succ rounds =>
      rw [runFor] at hrun
      split at hrun
      · subst hrun
        cases herror
      · subst hrun
        exact finish_of_halted h
      · rw [if_pos h] at hrun
        subst hrun
        exact finish_of_halted h

theorem stopCause?_cases {limits : TimedLimits} {reading : Nat} {search : Search}
    {cause : HaltCause} (h : stopCause? limits reading search = .ok (some cause)) :
    cause = .stopConditionMet ∨ cause = .timeLimitExceeded := by
  obtain ⟨stopped, -, h⟩ := bind_eq_ok.mp h
  cases stopped with
  | true => exact Or.inl (Option.some.inj (Except.ok.inj h)).symm
  | false =>
      obtain ⟨outOfTime, -, h⟩ := bind_eq_ok.mp h
      cases outOfTime with
      | true => exact Or.inr (Option.some.inj (Except.ok.inj h)).symm
      | false => cases h

/-- **A run that does not fail is a sequence of steps that continue, and an end.** -/
theorem runFor_spec {limits : TimedLimits} {verbose : Bool} {rounds reading : Nat} {search : Search}
    {memory : M} {printed : String} {checkpoint : Option Search} {run : RunOutcome M}
    (h : search.Running)
    (hrun : search.runFor p policy (some (.whole b)) verbose limits rounds reading memory
      printed checkpoint = run) (herror : run.error = none) :
    ∃ last memory', Relation.ReflTransGen (Continues p policy b) (search, memory) (last, memory') ∧
      Ends p policy last memory' run.search := by
  induction rounds generalizing reading search memory printed checkpoint with
  | zero =>
      subst hrun
      exact ⟨search, memory, .refl, h.finish printed checkpoint⟩
  | succ rounds ih =>
      rw [runFor] at hrun
      split at hrun
      · subst hrun
        cases herror
      · subst hrun
        exact ⟨search, memory, .refl, h.finish printed checkpoint⟩
      rw [h.halted, if_neg Bool.false_ne_true] at hrun
      split at hrun
      · subst hrun
        cases herror
      · rename_i cause hcause
        subst hrun
        rw [finish_of_halted rfl]
        exact ⟨search, memory, .refl, .stopped cause (stopCause?_cases hcause)⟩
      · dsimp only at hrun
        split at hrun
        · subst hrun
          rename_i hfailed
          exact absurd (hfailed.symm.trans herror) nofun
        · rename_i hadvanced
          -- a step that halts the search is the last one, whatever rounds are left
          rcases advance_cases rfl hadvanced with ⟨hempty, hhalt⟩ | hfinds | hcontinues
          · have hlast := runFor_of_halted hrun herror (by rw [hhalt]; rfl)
            exact ⟨search, memory, .refl, by rw [hlast, hhalt]; exact .exhausted hempty⟩
          · have hlast := runFor_of_halted hrun herror hfinds.halted
            exact ⟨search, memory, .refl, by rw [hlast]; exact .found hfinds⟩
          · obtain ⟨last, memory', hsteps, hends⟩ := ih (h.continues hcontinues) hrun
            exact ⟨last, memory', .head hcontinues hsteps, hends⟩

/-- What every step that continues preserves holds at the end of a sequence of them. -/
theorem invariant_of_continues (Inv : Search → M → Prop)
    (hstep : ∀ {search next memory memory'}, Inv search memory →
      Continues p policy b (search, memory) (next, memory') → Inv next memory')
    {search last : Search} {memory memory' : M}
    (hsteps : Relation.ReflTransGen (Continues p policy b) (search, memory) (last, memory'))
    (h : Inv search memory) : Inv last memory' := by
  generalize hfirst : (search, memory) = first at hsteps
  generalize hlast : (last, memory') = final at hsteps
  induction hsteps generalizing last memory' with
  | refl =>
      obtain ⟨rfl, rfl⟩ := Prod.mk.inj (hlast.trans hfirst.symm)
      exact h
  | @tail middle _ _ hcontinues ih =>
      subst hlast
      exact hstep (@ih middle.1 middle.2 rfl) hcontinues

/-! ## Soundness -/

/-- The actions of every node on the frontier lead to its state within the bound. -/
structure Sound (p : Problem) (b : Nat) (search : Search) : Prop where
  initialState : search.initialState = p.initialState
  leads : ∀ n ∈ search.frontier, p.Leads p.initialState n.actions n.state
  depth_le : ∀ n ∈ search.frontier, n.depth ≤ b

theorem sound_start : Sound p b (start p.initialState) := by
  refine ⟨rfl, fun n hn => ?_, fun n hn => ?_⟩
  all_goals obtain rfl := List.mem_singleton.mp hn
  · exact .nil _
  · exact Nat.zero_le b

/-- A step keeps the nodes within any bound that is not smaller than its own. -/
theorem Sound.continues_of_le {c : Nat} {search next : Search} {memory memory' : M}
    (h : Sound p c search) (hle : b ≤ c)
    (hstep : Continues p policy b (search, memory) (next, memory')) : Sound p c next := by
  cases hstep with
  | cut htakes =>
      exact ⟨h.initialState, fun n hn => h.leads n (htakes.subset hn),
        fun n hn => h.depth_le n (htakes.subset hn)⟩
  | @expanded _ _ _ _ node _ _ _ _ _ _ htakes _ hdepth hl hadds =>
      refine ⟨h.initialState, fun n hn => ?_, fun n hn => ?_⟩
      all_goals rcases List.mem_append.mp hn with hn | hn
      · exact h.leads n (htakes.subset hn)
      · obtain ⟨a, hmem, hactions⟩ := hadds.exists_of_mem hn
        rw [hactions]
        exact (h.leads node htakes.mem).snoc hl hmem
      · exact h.depth_le n (htakes.subset hn)
      · rw [hadds.depth_eq hn]
        exact hdepth.trans_le hle

theorem Sound.continues {search next : Search} {memory memory' : M} (h : Sound p b search)
    (hstep : Continues p policy b (search, memory) (next, memory')) : Sound p b next :=
  h.continues_of_le le_rfl hstep

/-- **At every point of a run the nodes on the frontier are sound, and the search has not
halted.** -/
theorem sound_of_continues {last : Search} {memory memory' : M}
    (hsteps : Relation.ReflTransGen (Continues p policy b) (start p.initialState, memory)
      (last, memory')) : Sound p b last ∧ last.Running :=
  invariant_of_continues (fun search _ => Sound p b search ∧ search.Running)
    (fun h hstep => ⟨h.1.continues hstep, h.2.continues hstep⟩) hsteps
    ⟨sound_start, running_start _⟩

end Search

end HornPlan
