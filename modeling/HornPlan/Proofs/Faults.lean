import HornPlan.Proofs.Coverage

/-!
# What a step leaves behind, and how it fails

A step changes a search bit by bit, and what it has changed stays when it fails.  `Leaves` lists
what may be left of a search, with the error if there is one, and what every step preserves is read
off this list.  So it is with `Regular`, which holds of the searches that count their steps and put
down a history (`Regular.advance`).

Where moreover the nodes can be expanded and printed, and the depths noted be compared
(`WellFormed`), a step fails only where something does that it asks of the policy or of the problem:
choosing a node, testing it, computing its successors, or deciding whether to discard a new node.
`Fault` lists these failures with the search that each leaves behind, and `WellFormed.advance_fault`
says that there are no others.
-/

namespace HornPlan

theorem Node.name?_eq_ok {n : Node} (h : ∀ a ∈ n.actions, a.isPrintable) : n.name? = .ok n.name :=
  if_pos (List.all_eq_true.mpr h)

namespace Search

variable {p : Problem} {M : Type} {policy : Policy M}

/-! ## What a step leaves behind -/

/-- The states generated so far, when a depth has been noted for some more, one after the other. -/
def notedAt (depth : Count) (seen : List (State × Count)) (states : List State) :
    List (State × Count) :=
  states.foldl (fun seen s => recordDepth seen s depth) seen

/-- **What a step leaves of a search, with the error if it fails.**  A node that has been taken is
gone, the depths of some of its successors have been noted even where the step fails later, and the
nodes of the successors join the frontier before the expansion is put down. -/
inductive Leaves (p : Problem) (search : Search) : Search → Option Error → Prop
  | untouched (e : Error) : Leaves p search search (some e)
  | exhausted (hempty : search.frontier = []) : Leaves p search (search.halt .frontierEmpty) none
  | taken {node : Node} {rest : List Node} {step : Count} (e : Error)
      (hnode : node ∈ search.frontier) (hrest : rest ⊆ search.frontier)
      (hstep : step = search.step ∨ search.step.next = .ok step) :
      Leaves p search { search with frontier := rest, step := step } (some e)
  | looked {node : Node} {rest : List Node} {step : Count} {cut : Bool} {l : List (Action × State)}
      {noted : List State} (e : Error) (hnode : node ∈ search.frontier)
      (hrest : rest ⊆ search.frontier) (hstep : search.step.next = .ok step)
      (hl : (if cut then .ok [] else p.successors node.state) = .ok l)
      (hnoted : noted ⊆ l.map Prod.snd) :
      Leaves p search
        { search with
          frontier := rest, step := step,
          seen := notedAt (.whole (node.depth + 1)) search.seen noted }
        (some e)
  | found {node : Node} {rest : List Node} {step : Count} {next : Search} {error : Option Error}
      (hnode : node ∈ search.frontier) (hrest : rest ⊆ search.frontier)
      (hstep : search.step.next = .ok step) (hreaches : p.reaches node.state = .ok true)
      (hrecord : record
        { search.halt .goalReached with frontier := rest, step := step, solution := some node }
        (expansionOf
          { search.halt .goalReached with frontier := rest, step := step, solution := some node }
          node [] true) = (next, error)) :
      Leaves p search next error
  | expanded {node : Node} {rest new : List Node} {step : Count} {cut : Bool}
      {l : List (Action × State)} {noted : List State} {next : Search} {error : Option Error}
      (hnode : node ∈ search.frontier) (hrest : rest ⊆ search.frontier)
      (hstep : search.step.next = .ok step)
      (hl : (if cut then .ok [] else p.successors node.state) = .ok l)
      (hnoted : noted ⊆ l.map Prod.snd)
      (hnew : ∀ n ∈ new, ∃ a, (a, n.state) ∈ l ∧ n.actions = node.actions ++ [a])
      (hrecord : record
        { search with
          frontier := rest ++ new, step := step,
          seen := notedAt (.whole (node.depth + 1)) search.seen noted }
        (expansionOf
          { search with
            frontier := rest ++ new, step := step,
            seen := notedAt (.whole (node.depth + 1)) search.seen noted }
          node new false) = (next, error)) :
      Leaves p search next error

theorem search_of_record {search next : Search} {entry : Except Error HistoryEntry}
    {error : Option Error} (h : search.record entry = (next, error)) :
    ∃ history, next = { search with history := history } := by
  unfold record at h
  split at h
  · rename_i history _
    obtain ⟨rfl, -⟩ := Prod.mk.inj h
    exact ⟨history, rfl⟩
  · obtain ⟨rfl, -⟩ := Prod.mk.inj h
    exact ⟨search.history, rfl⟩

section

variable {search : Search} {memory : M} {bound : Option Count} {verbose : Bool} {printed : String}
  {node : Node} {rest : List Node} {step : Count} {outcome : Outcome M}

/-- Looking at successors changes nothing but what has been generated, whether it fails or not. -/
theorem exists_notedAt_of_addSuccessors {parent : Node} {l : List (Action × State)}
    {fresh nodes : List Node}
    (h : addSuccessors policy verbose parent fresh search memory printed l = (outcome, nodes)) :
    ∃ noted, noted ⊆ l.map Prod.snd ∧
      outcome.search =
        { search with seen := notedAt (.whole (parent.depth + 1)) search.seen noted } := by
  induction l generalizing fresh search memory printed with
  | nil =>
      obtain ⟨rfl, -⟩ := Prod.mk.inj h
      exact ⟨[], List.nil_subset _, rfl⟩
  | cons successor l ih =>
      rw [addSuccessors] at h
      split at h
      · obtain ⟨rfl, -⟩ := Prod.mk.inj h
        exact ⟨[], List.nil_subset _, rfl⟩
      · obtain ⟨noted, hnoted, hsearch⟩ := ih h
        exact ⟨noted, List.subset_cons_of_subset _ hnoted, hsearch⟩
      · -- from here on the depth of the successor is noted
        have hhere : [successor.2] ⊆ (successor :: l).map Prod.snd :=
          List.cons_subset.mpr ⟨List.mem_cons_self, List.nil_subset _⟩
        dsimp only at h
        split at h
        · obtain ⟨rfl, -⟩ := Prod.mk.inj h
          exact ⟨[successor.2], hhere, rfl⟩
        · split_ifs at h
          · obtain ⟨rfl, -⟩ := Prod.mk.inj h
            exact ⟨[successor.2], hhere, rfl⟩
          all_goals
            obtain ⟨noted, hnoted, hsearch⟩ := ih h
            exact ⟨successor.2 :: noted, List.cons_subset_cons _ hnoted, hsearch⟩

theorem leaves_of_expandBelow (hnode : node ∈ search.frontier) (hrest : rest ⊆ search.frontier)
    (hstep : search.step.next = .ok step)
    (h : expandBelow p policy bound verbose node { search with frontier := rest, step := step }
      memory printed = outcome) : Leaves p search outcome.search outcome.error := by
  unfold expandBelow at h
  split at h
  · subst h
    exact .taken _ hnode hrest (Or.inr hstep)
  · dsimp only at h
    split at h
    · subst h
      exact .taken _ hnode hrest (Or.inr hstep)
    · rename_i l hl
      split at h
      · rename_i hadded
        obtain ⟨noted, hnoted, hsearch⟩ := exists_notedAt_of_addSuccessors hadded
        subst h
        dsimp only at hsearch ⊢
        rw [hsearch]
        exact .looked _ hnode hrest hstep hl hnoted
      · rename_i fresh hadded
        obtain ⟨noted, hnoted, hsearch⟩ := exists_notedAt_of_addSuccessors hadded
        obtain ⟨new, _, hfresh, -, hadds⟩ := addSuccessors_cases hadded rfl
        dsimp only at hsearch
        rw [List.nil_append] at hfresh
        subst hsearch hfresh
        have hnew : ∀ n ∈ fresh, ∃ a, (a, n.state) ∈ l ∧ n.actions = node.actions ++ [a] :=
          fun n hn => hadds.exists_of_mem hn
        split at h
        all_goals
          rename_i hrecord
          subst h
          exact .expanded hnode hrest hstep hl hnoted hnew hrecord

theorem leaves_of_expandNode (hnode : node ∈ search.frontier) (hrest : rest ⊆ search.frontier)
    (hstep : search.step.next = .ok step)
    (h : expandNode p policy bound verbose node { search with frontier := rest, step := step }
      memory printed = outcome) : Leaves p search outcome.search outcome.error := by
  unfold expandNode at h
  split at h
  · subst h
    exact .taken _ hnode hrest (Or.inr hstep)
  · rename_i hreaches
    dsimp only at h
    split at h
    all_goals
      rename_i hrecord
      subst h
      exact .found hnode hrest hstep hreaches hrecord
  · exact leaves_of_expandBelow hnode hrest hstep h

/-- **What a step can leave behind**, whether it fails or not. -/
theorem leaves_of_advance (h : search.advance p policy bound verbose memory = outcome) :
    Leaves p search outcome.search outcome.error := by
  unfold advance at h
  split at h
  · rename_i hempty
    subst h
    exact .exhausted (List.isEmpty_iff.mp hempty)
  · dsimp only at h
    split at h
    · subst h
      exact .untouched _
    · rename_i index _
      split at h
      · subst h
        exact .untouched _
      · rename_i node hnode
        have hmem := List.mem_of_getElem? hnode
        have hrest : search.frontier.eraseIdx index ⊆ search.frontier := List.eraseIdx_subset
        split at h
        · subst h
          exact .taken _ hmem hrest (Or.inl rfl)
        · rename_i step hstep
          split at h
          · subst h
            exact .taken _ hmem hrest (Or.inr hstep)
          · exact leaves_of_expandNode hmem hrest hstep h

end

/-! ## Regular searches -/

/-- The steps are counted with whole numbers, and the history is a list. -/
structure Regular (search : Search) : Prop where
  step : ∃ n : Int, search.step = .whole n
  history : ∃ items, search.history = .entries items

theorem regular_start (s : State) : (start s).Regular :=
  ⟨⟨0, rfl⟩, ⟨[], rfl⟩⟩

section

variable {search next : Search} {error : Option Error} {node : Node}

theorem Regular.record (h : search.Regular) {entry : Except Error HistoryEntry}
    (hrecord : search.record entry = (next, error)) : next.Regular := by
  obtain ⟨items, hitems⟩ := h.history
  rw [Search.record, hitems] at hrecord
  cases entry with
  | ok entry =>
      obtain ⟨rfl, -⟩ := Prod.mk.inj hrecord
      exact ⟨h.step, ⟨_, rfl⟩⟩
  | error error =>
      obtain ⟨rfl, -⟩ := Prod.mk.inj hrecord
      exact h

theorem Regular.leaves (h : search.Regular) (hleaves : Leaves p search next error) :
    next.Regular := by
  obtain ⟨n, hn⟩ := h.step
  have hcounted : ∀ {step}, search.step.next = .ok step → ∃ n, step = .whole n := by
    intro step hstep
    rw [hn] at hstep
    exact ⟨_, (Except.ok.inj hstep).symm⟩
  cases hleaves with
  | untouched e => exact h
  | exhausted => exact ⟨h.step, h.history⟩
  | taken e _ _ hstep =>
      rcases hstep with rfl | hstep
      · exact ⟨h.step, h.history⟩
      · exact ⟨hcounted hstep, h.history⟩
  | looked e _ _ hstep => exact ⟨hcounted hstep, h.history⟩
  | found _ _ hstep _ hrecord | expanded _ _ hstep _ _ _ hrecord =>
      refine Regular.record ?_ hrecord
      exact ⟨hcounted hstep, h.history⟩

/-- **A step keeps a search regular**, whether it fails or not. -/
theorem Regular.advance (h : search.Regular) {policy : Policy M} {memory : M} {bound : Option Count}
    {verbose : Bool} : (search.advance p policy bound verbose memory).search.Regular :=
  h.leaves (leaves_of_advance rfl)

theorem Regular.record_ne (h : search.Regular) {fresh : List Node} {goal : Bool} {next : Search}
    (hnode : ∀ a ∈ node.actions, a.isPrintable)
    (hfresh : ∀ n ∈ fresh, ∀ a ∈ n.actions, a.isPrintable) :
    search.record (search.expansionOf node fresh goal) ≠ (next, some e) := by
  have hlast :
      (fresh.filterMap fun n => n.actions.getLast?).all (fun a => a.isPrintable) = true := by
    refine List.all_eq_true.mpr ?_
    intro a ha
    obtain ⟨n, hn, hlast⟩ := List.mem_filterMap.mp ha
    exact hfresh n hn a (List.mem_of_getLast? hlast)
  obtain ⟨items, hitems⟩ := h.history
  rw [expansionOf, Node.name?_eq_ok hnode, ok_bind]
  dsimp only
  rw [hlast, Search.record, hitems]
  nofun

end

/-! ## Faults -/

/-- The nodes on the frontier are proper and can be printed, the depths noted are numbers, and so is
the number of steps. -/
structure WellFormed (search : Search) : Prop where
  frontier : ∀ n ∈ search.frontier, n.state.Proper ∧ ∀ a ∈ n.actions, a.isPrintable
  tidy : Tidy search.seen
  regular : search.Regular

/-- **How a step fails with an error**, and the search that it leaves behind.  A node that has been
taken is gone, and where the policy fails to decide on a new node those before it are lost, though
their depths are noted. -/
inductive Fault (p : Problem) (policy : Policy M) (bound : Option Count) (search : Search)
    (memory : M) (e : Error) :
    Search → Prop
  | choosing (hchosen : (policy.choose memory search.frontier).answer = .error e) :
      Fault p policy bound search memory e search
  | naming {index : Nat} (hnonempty : search.frontier ≠ [])
      (hchosen : (policy.choose memory search.frontier).answer = .ok index)
      (hnone : search.frontier[index]? = none) (herror : e = .outOfRange) :
      Fault p policy bound search memory e search
  | testing {node : Node} {rest : List Node} {memory' : M} {step : Count}
      (htakes : Takes policy memory search.frontier node rest memory')
      (hstep : search.step.next = .ok step) (hreaches : p.reaches node.state = .error e) :
      Fault p policy bound search memory e { search with frontier := rest, step := step }
  | expanding {node : Node} {rest : List Node} {memory' : M} {step : Count}
      (htakes : Takes policy memory search.frontier node rest memory')
      (hstep : search.step.next = .ok step) (hreaches : p.reaches node.state = .ok false)
      (hbound : atBound bound node = .ok false)
      (hl : p.successors node.state = .error e) :
      Fault p policy bound search memory e { search with frontier := rest, step := step }
  | discarding {node : Node} {rest : List Node} {memory' : M} {step : Count}
      {before after : List (Action × State)} {a : Action} {s : State} {new : List Node}
      {seen' : List (State × Count)} {memory'' : M}
      (htakes : Takes policy memory search.frontier node rest memory')
      (hstep : search.step.next = .ok step) (hreaches : p.reaches node.state = .ok false)
      (hbound : atBound bound node = .ok false)
      (hl : p.successors node.state = .ok (before ++ (a, s) :: after))
      (hadds : Adds policy node search.seen memory' before new seen' memory'')
      (hfresh : seenBy seen' s (node.depth + 1) = .ok false)
      (hprune : (policy.prune memory'' ⟨s, node.actions ++ [a], step⟩
        { search with
          frontier := rest, step := step,
          seen := recordDepth seen' s (.whole (node.depth + 1)) }).answer
          = .error e) :
      Fault p policy bound search memory e
        { search with
          frontier := rest, step := step, seen := recordDepth seen' s (.whole (node.depth + 1)) }

section

variable {search : Search} {memory memory' : M} {bound : Option Int} {verbose : Bool}
  {printed : String} {node : Node} {rest : List Node} {step : Count} {outcome : Outcome M}
  {e : Error}

/-- Looking at successors that can be printed fails only where the policy does: at one of them, when
those before it have been looked at. -/
theorem addSuccessors_fault {parent : Node} {l : List (Action × State)}
    (hl : ∀ successor ∈ l, successor.1.isPrintable ∧ successor.2.Proper) {fresh nodes : List Node}
    (htidy : Tidy search.seen)
    (h : addSuccessors policy verbose parent fresh search memory printed l = (outcome, nodes))
    (herror : outcome.error = some e) :
    ∃ before a s after new seen' memory', l = before ++ (a, s) :: after ∧
      Adds policy parent search.seen memory before new seen' memory' ∧
      seenBy seen' s (parent.depth + 1) = .ok false ∧
      (policy.prune memory' ⟨s, parent.actions ++ [a], search.step⟩
        { search with seen := recordDepth seen' s (.whole (parent.depth + 1)) }).answer = .error e ∧
      outcome.search = { search with seen := recordDepth seen' s (.whole (parent.depth + 1)) } := by
  -- induction on the successors; those before the one at which the policy fails have been added
  induction l generalizing fresh search memory printed with
  | nil =>
      obtain ⟨rfl, -⟩ := Prod.mk.inj h
      cases herror
  | cons successor l ih =>
      obtain ⟨a, s⟩ := successor
      obtain ⟨⟨hprintable, hs⟩, hrest⟩ := List.forall_mem_cons.mp hl
      rw [addSuccessors] at h
      dsimp only at h
      split at h
      · rename_i hseen
        rcases seenBy_eq_ok (s := s) (d := parent.depth + 1) htidy with
            ⟨hdecided, -⟩ | ⟨hdecided, -⟩
        all_goals cases hseen.symm.trans hdecided
      · rename_i hknown
        obtain ⟨before, a', s', after, new, seen', memory', rfl, hadds, hend⟩ := ih hrest htidy h
        exact ⟨(a, s) :: before, a', s', after, new, seen', memory', rfl, .known hknown hadds, hend⟩
      · rename_i hfresh
        have hrecorded := htidy.recordDepth hs (parent.depth + 1)
        split at h
        · rename_i hreply
          obtain ⟨rfl, -⟩ := Prod.mk.inj h
          obtain rfl := Option.some.inj herror
          exact ⟨[], a, s, l, [], search.seen, memory, rfl, .nil, hfresh, hreply, rfl⟩
        · rename_i pruned hreply
          rw [hprintable, Bool.not_true, Bool.and_false, if_neg Bool.false_ne_true] at h
          cases pruned with
          | true =>
              obtain ⟨before, a', s', after, new, seen', memory', rfl, hadds, hend⟩ :=
                ih hrest hrecorded h
              exact ⟨(a, s) :: before, a', s', after, new, seen', memory', rfl,
                .pruned hfresh rfl hreply hadds, hend⟩
          | false =>
              obtain ⟨before, a', s', after, new, seen', memory', rfl, hadds, hend⟩ :=
                ih hrest hrecorded h
              exact ⟨(a, s) :: before, a', s', after, _ :: new, seen', memory', rfl,
                .kept hfresh rfl hreply hadds, hend⟩

theorem exists_atBound (bound : Option Int) (node : Node) :
    ∃ cut, atBound (bound.map .whole) node = .ok cut := by
  cases bound with
  | none => exact ⟨false, rfl⟩
  | some b => exact ⟨_, atBound_whole b node⟩

/-- A node that has been taken and is not the goal. -/
theorem WellFormed.expandBelow_fault (hformed : search.WellFormed) (hp : p.Proper)
    (htakes : Takes policy memory search.frontier node rest memory')
    (hstep : search.step.next = .ok step) (hcount : ∃ n : Int, step = .whole n)
    (hreaches : p.reaches node.state = .ok false)
    (h : expandBelow p policy (bound.map .whole) verbose node
      { search with frontier := rest, step := step } memory'
      printed = outcome)
    (herror : outcome.error = some e) :
    Fault p policy (bound.map .whole) search memory e outcome.search := by
  obtain ⟨hnode, hprintable⟩ := hformed.frontier node htakes.mem
  obtain ⟨cut, hbound⟩ := exists_atBound bound node
  have htaken : { search with frontier := rest, step := step }.Regular :=
    ⟨hcount, hformed.regular.history⟩
  have htidy : Tidy { search with frontier := rest, step := step }.seen := hformed.tidy
  rw [expandBelow, hbound] at h
  dsimp only at h
  split at h
  · rename_i hl
    cases cut with
    | true => cases hl
    | false =>
        subst h
        obtain rfl := Option.some.inj herror
        exact .expanding htakes hstep hreaches hbound hl
  · rename_i l hl
    have hsuccessors : ∀ successor ∈ l, successor.1.isPrintable ∧ successor.2.Proper :=
      fun successor hmem => (hp.isProper_of_mem_below hnode hl successor hmem).imp_left
        Action.isPrintable_of_isProper
    split at h
    · rename_i hadded
      subst h
      obtain rfl := Option.some.inj herror
      obtain ⟨before, a, s, after, new, seen', memory'', rfl, hadds, hfresh, hprune, hsearch⟩ :=
        addSuccessors_fault hsuccessors htidy hadded rfl
      cases cut with
      | true => cases before <;> cases hl
      | false =>
          dsimp only at hsearch
          rw [hsearch]
          exact .discarding htakes hstep hreaches hbound hl hadds hfresh hprune
    · rename_i fresh hadded
      -- an expansion is put down in any case
      obtain ⟨new, seen', hnodes, hsearch, hadds⟩ := addSuccessors_cases hadded rfl
      have hfresh : ∀ n ∈ fresh, ∀ a ∈ n.actions, a.isPrintable := by
        intro n hn
        rw [hnodes, List.nil_append] at hn
        obtain ⟨a, hmem, hactions⟩ := hadds.exists_of_mem hn
        rw [hactions]
        exact List.forall_mem_append.mpr ⟨hprintable, by simpa using (hsuccessors _ hmem).1⟩
      split at h
      · rename_i hrecord
        dsimp only at hsearch
        subst hsearch
        refine absurd hrecord (Regular.record_ne ?_ hprintable hfresh)
        exact ⟨htaken.step, htaken.history⟩
      · subst h
        cases herror

theorem WellFormed.expandNode_fault (hformed : search.WellFormed) (hp : p.Proper)
    (htakes : Takes policy memory search.frontier node rest memory')
    (hstep : search.step.next = .ok step) (hcount : ∃ n : Int, step = .whole n)
    (h : expandNode p policy (bound.map .whole) verbose node
      { search with frontier := rest, step := step } memory'
      printed = outcome)
    (herror : outcome.error = some e) :
    Fault p policy (bound.map .whole) search memory e outcome.search := by
  unfold expandNode at h
  split at h
  · rename_i hreaches
    subst h
    obtain rfl := Option.some.inj herror
    exact .testing htakes hstep hreaches
  · dsimp only at h
    split at h
    · rename_i hrecord
      refine absurd hrecord (Regular.record_ne ?_ (hformed.frontier node htakes.mem).2 ?_)
      · exact ⟨hcount, hformed.regular.history⟩
      · exact fun n hn => absurd hn List.not_mem_nil
    · subst h
      cases herror
  · rename_i hreaches
    exact hformed.expandBelow_fault hp htakes hstep hcount hreaches h herror

/-- **A step of a well-formed search fails only where the policy or the problem does.** -/
theorem WellFormed.advance_fault (hformed : search.WellFormed) (hp : p.Proper)
    (h : search.advance p policy (bound.map .whole) verbose memory = outcome)
    (herror : outcome.error = some e) :
    Fault p policy (bound.map .whole) search memory e outcome.search := by
  obtain ⟨count, hcount⟩ := hformed.regular.step
  unfold advance at h
  split at h
  · subst h
    cases herror
  · rename_i hnonempty
    dsimp only at h
    split at h
    · rename_i hchosen
      subst h
      obtain rfl := Option.some.inj herror
      exact .choosing hchosen
    · rename_i index hchosen
      split at h
      · rename_i hnone
        subst h
        exact .naming (by simpa using hnonempty) hchosen hnone (Option.some.inj herror).symm
      · rename_i node hnode
        have htakes : Takes policy memory search.frontier node (search.frontier.eraseIdx index)
            (policy.choose memory search.frontier).memory := ⟨⟨index, hchosen, hnode, rfl⟩, rfl⟩
        -- a whole number is counted on, and the node can be printed
        have hstep : search.step.next = .ok (.whole (count + 1)) := by rw [hcount]; rfl
        rw [hstep] at h
        dsimp only at h
        split at h
        · rename_i hheader
          split at hheader
          · rw [header, Node.name?_eq_ok (hformed.frontier node htakes.mem).2] at hheader
            cases hheader
          · cases hheader
        · exact hformed.expandNode_fault hp htakes hstep ⟨_, rfl⟩ h herror

end

end Search

end HornPlan
