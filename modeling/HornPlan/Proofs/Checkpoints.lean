import HornPlan.Search.Checkpoint
import HornPlan.Search.Run
import HornPlan.Proofs.Documents
import HornPlan.Proofs.Faults

/-!
# Checkpoints are faithful

A search that was read from a file may hold anything in some of its places.  A search that was begun
from a proper state does not (`Storable`): its states and actions are proper, no state is noted
twice, its history is a list of expansions, and it has halted if it has a solution.  A storable
search can be written, and reading the document gives it back with all its parts
(`Storable.exists_searchData`).

No step makes a storable search one that is not, whatever the policy takes and discards, and whether
the step fails or not (`Storable.advance`).  So every search that a problem can come to is storable
(`Reachable.storable`), and the one that a run leaves behind is such a search (`Reachable.runFor`).
-/

namespace HornPlan

/-! ## Nodes -/

/-- The state and the actions of a node are proper. -/
structure Node.Proper (n : Node) : Prop where
  state : n.state.Proper
  actions : ∀ a ∈ n.actions, a.isProper

theorem Node.Proper.exists_fields {n : Node} (h : n.Proper) (e : Enumeration) :
    ∃ fields, e.nodeData n = .ok (.obj fields) ∧ Node.ofData? (.obj fields) = .ok n := by
  obtain ⟨state, hstate, hread⟩ := h.state.exists_stateData e
  have hactions : (n.actions.map Action.toData).mapM Action.ofData? = .ok n.actions := by
    rw [mapM_eq_ok, List.forall₂_map_left_iff]
    exact List.forall₂_same.mpr fun a ha => Action.ofData?_toData (h.actions a ha)
  refine ⟨_, bind_eq_ok.mpr ⟨state, hstate, rfl⟩, ?_⟩
  change (do
    let state ← State.ofData? state
    let actions ← (n.actions.map Action.toData).mapM Action.ofData?
    return Node.mk state actions (.ofData n.step.toData)) = _
  rw [hread, ok_bind, hactions, ok_bind, Count.ofData_toData]
  rfl

theorem Node.Proper.exists_nodeData {n : Node} (h : n.Proper) (e : Enumeration) :
    ∃ document, e.nodeData n = .ok document ∧ Node.ofData? document = .ok n := by
  obtain ⟨fields, hfields⟩ := h.exists_fields e
  exact ⟨.obj fields, hfields⟩

/-! ## Halting and history -/

theorem HaltFlag.ofData_toData (flag : HaltFlag) : ofData flag.toData = flag := by
  cases flag with
  | plain halted => rfl
  | foreign value h =>
      unfold ofData toData
      split
      · rename_i halted hhalted
        cases h.symm.trans hhalted
      · rfl

theorem HaltReason.ofData_toData (reason : HaltReason) : ofData reason.toData = reason := by
  cases reason with
  | cause known =>
      unfold ofData toData
      split
      · rename_i other hother
        obtain rfl := Option.some.inj ((HaltCause.ofData?_text known).symm.trans hother)
        rfl
      · rename_i hnone
        cases (HaltCause.ofData?_text known).symm.trans hnone
  | foreign value h =>
      unfold ofData toData
      split
      · rename_i known hknown
        cases h.symm.trans hknown
      · rfl

theorem Expansion.ofData?_toData (e : Expansion) : ofData? e.toData = some e := by
  have hproduced : (e.produced.map Json.str).mapM Json.text? = some e.produced := by
    induction e.produced with
    | nil => rfl
    | cons text rest ih => rw [List.map_cons, List.mapM_cons, ih]; rfl
  have hsizes : ¬((e.depth : Int) < 0 ∨ (e.frontierSize : Int) < 0) := by omega
  change (do
    let produced ← (e.produced.map Json.str).mapM Json.text?
    if (e.depth : Int) < 0 ∨ (e.frontierSize : Int) < 0 then none
    else some (⟨.ofData e.step.toData, e.node, (e.depth : Int).toNat, produced, e.goal,
      (e.frontierSize : Int).toNat⟩ : Expansion)) = _
  rw [hproduced, Option.bind_eq_bind, Option.bind_some, if_neg hsizes, Count.ofData_toData]
  rfl

theorem History.ofData_toData (es : List Expansion) :
    History.ofData (History.entries (es.map .expansion)).toData = .entries (es.map .expansion) := by
  have hentry : ∀ e : Expansion, HistoryEntry.ofData e.toData = .expansion e := by
    intro e
    rw [HistoryEntry.ofData, Expansion.ofData?_toData]
  change History.entries
    (((es.map HistoryEntry.expansion).map HistoryEntry.toData).map HistoryEntry.ofData)
    = _
  rw [List.map_map, List.map_map]
  exact congrArg History.entries (List.map_congr_left fun e _ => hentry e)

namespace Search

/-! ## Storable searches -/

/-- What every search has that was begun from a proper state. -/
structure Storable (search : Search) : Prop where
  initialState : search.initialState.Proper
  frontier : ∀ n ∈ search.frontier, n.Proper
  seen : ∀ entry ∈ search.seen, entry.1.Proper
  distinct : (search.seen.map Prod.fst).Nodup
  history : ∃ es : List Expansion, search.history = .entries (es.map .expansion)
  solution : ∀ n, search.solution = some n → n.Proper
  found : search.found = true → search.halted = true

theorem storable_start {s : State} (hs : s.Proper) : (start s).Storable := by
  refine ⟨hs, ?_, ?_, List.nodup_singleton s, ⟨[], rfl⟩, nofun, nofun⟩
  · intro n hn
    obtain rfl := List.mem_singleton.mp hn
    exact ⟨hs, fun a ha => absurd ha List.not_mem_nil⟩
  · intro entry hentry
    obtain rfl := List.mem_singleton.mp hentry
    exact hs

variable {search : Search}

theorem Storable.halt (h : search.Storable) (cause : HaltCause) : (search.halt cause).Storable :=
  ⟨h.initialState, h.frontier, h.seen, h.distinct, h.history, h.solution, fun _ => rfl⟩

/-! ## Reading what was written -/

theorem any_beq_eq_false {seen : List (State × Count)} {s : State} (hs : s.Proper)
    (hnew : s ∉ seen.map Prod.fst) : seen.any (·.1 == s) = false := by
  refine List.any_eq_false.mpr ?_
  intro entry hentry hbeq
  exact hnew (List.mem_map.mpr ⟨entry, hentry, State.eq_of_beq (Or.inr hs) hbeq⟩)

theorem recordDepth_of_notMem {seen : List (State × Count)} {s : State} (hs : s.Proper)
    (hnew : s ∉ seen.map Prod.fst) (depth : Count) :
    recordDepth seen s depth = seen ++ [(s, depth)] := by
  rw [recordDepth, any_beq_eq_false hs hnew, if_neg Bool.false_ne_true]

/-- Notes what the document of a state and its depth says. -/
def noteData (seen : List (State × Count)) (entry : Json) :
    Except Error (List (State × Count)) := do
  let state ← State.ofData? (← entry.require "state")
  return recordDepth seen state (.ofData (← entry.require "depth"))

/-- The depths of distinct states are written, and noted again in the same order. -/
theorem exists_seenData (e : Enumeration) {seen earlier : List (State × Count)}
    (hseen : ∀ entry ∈ seen, entry.1.Proper) (hdistinct : ((earlier ++ seen).map Prod.fst).Nodup) :
    ∃ documents, seen.mapM e.seenData = .ok documents ∧
      documents.foldlM noteData earlier = .ok (earlier ++ seen) := by
  -- induction on what is still to be written; `earlier` is what has been noted again so far
  induction seen generalizing earlier with
  | nil => exact ⟨[], rfl, by rw [List.append_nil]; rfl⟩
  | cons entry rest ih =>
      obtain ⟨hentry, hrest⟩ := List.forall_mem_cons.mp hseen
      obtain ⟨state, hstate, hread⟩ := hentry.exists_stateData e
      have hnew : entry.1 ∉ earlier.map Prod.fst := by
        rw [List.map_append, List.map_cons] at hdistinct
        exact fun hmem => (List.nodup_append.mp hdistinct).2.2 _ hmem _ List.mem_cons_self rfl
      obtain ⟨documents, hdocuments, hfold⟩ :=
        ih hrest (List.append_cons earlier entry rest ▸ hdistinct)
      refine ⟨_, mapM_cons_eq_ok.mpr ⟨_, documents, bind_eq_ok.mpr ⟨state, hstate, rfl⟩,
        hdocuments, rfl⟩, ?_⟩
      have hnoted : noteData earlier (.obj [("state", state), ("depth", entry.2.toData)])
          = .ok (earlier ++ [entry]) := by
        change (State.ofData? state >>=
          fun state => .ok (recordDepth earlier state (.ofData entry.2.toData)))
          = _
        rw [hread, ok_bind, Count.ofData_toData, recordDepth_of_notMem hentry hnew]
      rw [List.foldlM_cons]
      refine bind_eq_ok.mpr ⟨_, hnoted, ?_⟩
      rw [hfold, ← List.append_cons]

/-- A solution as a JSON document. -/
def solutionData (e : Enumeration) : Option Node → Except Error Json
  | none => pure .null
  | some node => e.nodeData node

/-- Reads a solution. -/
def solutionOf? : Json → Except Error (Option Node)
  | .null => pure none
  | node => (Node.ofData? node).map some

theorem exists_solutionData (e : Enumeration) {solution : Option Node}
    (h : ∀ n, solution = some n → n.Proper) :
    ∃ document, solutionData e solution = .ok document ∧ solutionOf? document = .ok solution := by
  cases solution with
  | none => exact ⟨.null, rfl, rfl⟩
  | some node =>
      obtain ⟨fields, hwritten, hread⟩ := (h node rfl).exists_fields e
      exact ⟨.obj fields, hwritten, congrArg (Except.map some) hread⟩

/-- The document of a search from those of its parts. -/
def documentOf (search : Search) (initialState : Json) (frontier seen : List Json)
    (solution : Json) : Json :=
  .obj [("initial_state", initialState), ("frontier", .arr frontier), ("seen", .arr seen),
    ("history", search.history.toData), ("step", search.step.toData),
    ("halted", search.haltFlag.toData), ("halt_reason", search.haltReason.toData),
    ("solution", solution)]

theorem searchData_eq (e : Enumeration) (search : Search) : e.searchData search = (do
    let initialState ← e.stateData search.initialState
    let frontier ← search.frontier.mapM e.nodeData
    let seen ← search.seen.mapM e.seenData
    let solution ← solutionData e search.solution
    return search.documentOf initialState frontier seen solution) := by
  obtain ⟨_, _, _, _, _, _, _, solution⟩ := search
  cases solution with
  | none => rfl
  | some node => rfl

theorem ofData?_documentOf (search : Search) (initialState : Json) (frontier seen : List Json)
    (solution : Json) : Search.ofData? (search.documentOf initialState frontier seen solution) = (do
      let initialState ← State.ofData? initialState
      let frontier ← frontier.mapM Node.ofData?
      let seen ← seen.foldlM noteData []
      let solution ← solutionOf? solution
      return ⟨initialState, frontier, seen, .ofData search.history.toData,
      .ofData search.step.toData,
        .ofData search.haltFlag.toData, .ofData search.haltReason.toData, solution⟩) := by
  cases solution with
  | null => rfl
  | _ => rfl

/-- **A storable search is written, and read back with all its parts,** in whatever order facts are
met. -/
theorem Storable.exists_searchData (h : search.Storable) (e : Enumeration) :
    ∃ document, e.searchData search = .ok document ∧ Search.ofData? document = .ok search := by
  obtain ⟨initialState, hinitial, hinitialRead⟩ := h.initialState.exists_stateData e
  obtain ⟨frontier, hfrontier, hpairs⟩ := exists_mapM_eq_ok fun n hn =>
    (h.frontier n hn).exists_nodeData e
  have hfrontierRead : frontier.mapM Node.ofData? = .ok search.frontier :=
    mapM_eq_ok.mpr hpairs.flip
  have hdistinct : (([] ++ search.seen).map Prod.fst).Nodup := h.distinct
  obtain ⟨seen, hseen, hseenRead⟩ := exists_seenData e h.seen hdistinct
  obtain ⟨solution, hsolution, hsolutionRead⟩ := exists_solutionData e h.solution
  obtain ⟨es, hhistory⟩ := h.history
  refine ⟨search.documentOf initialState frontier seen solution, ?_, ?_⟩
  · rw [searchData_eq, hinitial, ok_bind, hfrontier, ok_bind, hseen, ok_bind, hsolution]
    rfl
  · rw [ofData?_documentOf, hinitialRead, ok_bind, hfrontierRead, ok_bind, hseenRead, ok_bind,
      hsolutionRead, hhistory, History.ofData_toData, Count.ofData_toData, HaltFlag.ofData_toData,
      HaltReason.ofData_toData, ← hhistory]
    rfl

/-! ## Steps -/

variable {p : Problem} {M : Type} {policy : Policy M} {memory : M} {bound : Option Count}
  {verbose : Bool} {printed : String} {node : Node}

/-- Noting the depth of a proper state keeps the states distinct. -/
theorem Storable.recordDepth (h : search.Storable) {s : State} (hs : s.Proper) (depth : Count) :
    { search with seen := recordDepth search.seen s depth }.Storable := by
  by_cases hnew : s ∈ search.seen.map Prod.fst
  · -- the states are those that were there
    have hstates :
        (Search.recordDepth search.seen s depth).map Prod.fst = search.seen.map Prod.fst := by
      rw [Search.recordDepth]
      split
      · rw [List.map_map]
        refine List.map_congr_left fun entry _ => ?_
        dsimp only [Function.comp]
        split <;> rfl
      · rename_i hany
        obtain ⟨entry, hentry, rfl⟩ := List.mem_map.mp hnew
        exact absurd (List.any_eq_true.mpr ⟨entry, hentry, BEq.refl entry.1⟩) hany
    refine ⟨h.initialState, h.frontier, ?_, hstates ▸ h.distinct, h.history, h.solution, h.found⟩
    intro entry hentry
    have hmem : entry.1 ∈ search.seen.map Prod.fst := hstates ▸ List.mem_map_of_mem hentry
    obtain ⟨earlier, hearlier, heq⟩ := List.mem_map.mp hmem
    exact heq ▸ h.seen earlier hearlier
  · rw [recordDepth_of_notMem hs hnew]
    refine ⟨h.initialState, h.frontier, ?_, ?_, h.history, h.solution, h.found⟩
    · exact List.forall_mem_append.mpr ⟨h.seen, List.forall_mem_singleton.mpr hs⟩
    · rw [List.map_append, List.nodup_append]
      refine ⟨h.distinct, List.nodup_singleton s, ?_⟩
      intro t ht u hu heq
      obtain rfl := List.mem_singleton.mp hu
      exact hnew (heq ▸ ht)

theorem expansionOf_eq_ok {node : Node} {fresh : List Node} {goal : Bool} {entry : HistoryEntry}
    (h : search.expansionOf node fresh goal = .ok entry) : ∃ e, entry = .expansion e ∧
      e.produced = (fresh.filterMap fun n => n.actions.getLast?).map fun a => a.text := by
  obtain ⟨name, -, h⟩ := bind_eq_ok.mp h
  dsimp only at h
  split at h
  · cases h
  · exact ⟨_, (Except.ok.inj h).symm, rfl⟩

/-- What is put down about a step is an expansion, if anything is. -/
theorem Storable.record (h : search.Storable) {node : Node} {fresh : List Node} {goal : Bool}
    {next : Search} {error : Option Error}
    (hrecord : search.record (search.expansionOf node fresh goal) = (next, error)) :
    next.Storable := by
  obtain ⟨es, hes⟩ := h.history
  rw [Search.record, hes] at hrecord
  cases hentry : search.expansionOf node fresh goal with
  | error e =>
      rw [hentry] at hrecord
      obtain ⟨rfl, -⟩ := Prod.mk.inj hrecord
      exact h
  | ok entry =>
      rw [hentry] at hrecord
      obtain ⟨rfl, -⟩ := Prod.mk.inj hrecord
      obtain ⟨e, rfl, -⟩ := expansionOf_eq_ok hentry
      refine ⟨h.initialState, h.frontier, h.seen, h.distinct, ⟨es ++ [e], ?_⟩, h.solution, h.found⟩
      rw [List.map_append]
      rfl

theorem Storable.notedAt (h : search.Storable) {states : List State}
    (hstates : ∀ s ∈ states, s.Proper) (depth : Count) :
    { search with seen := notedAt depth search.seen states }.Storable := by
  induction states generalizing search with
  | nil => exact h
  | cons s states ih =>
      obtain ⟨hs, hrest⟩ := List.forall_mem_cons.mp hstates
      have hfirst := h.recordDepth hs depth
      have hall := ih hfirst hrest
      exact hall

theorem Storable.taken (h : search.Storable) {rest : List Node} (hrest : rest ⊆ search.frontier)
    (step : Count) : { search with frontier := rest, step := step }.Storable :=
  ⟨h.initialState, fun n hn => h.frontier n (hrest hn), h.seen, h.distinct, h.history,
    h.solution, h.found⟩

theorem Storable.looked (h : search.Storable) (hp : p.Proper) (hnode : node ∈ search.frontier)
    {rest : List Node} (hrest : rest ⊆ search.frontier) {cut : Bool} {l : List (Action × State)}
    (hl : (if cut then .ok [] else p.successors node.state) = .ok l) {noted : List State}
    (hnoted : noted ⊆ l.map Prod.snd) (depth step : Count) :
    { search with
      frontier := rest, step := step,
      seen := Search.notedAt depth search.seen noted }.Storable := by
  refine (h.taken hrest step).notedAt (fun s hs => ?_) depth
  obtain ⟨successor, hmem, rfl⟩ := List.mem_map.mp (hnoted hs)
  exact (hp.isProper_of_mem_below (h.frontier node hnode).state hl successor hmem).2

/-- Whatever a step leaves behind, new nodes belong to proper successors of a proper node. -/
theorem Storable.leaves (h : search.Storable) (hp : p.Proper) {next : Search} {error : Option Error}
    (hleaves : Leaves p search next error) : next.Storable := by
  cases hleaves with
  | untouched e => exact h
  | exhausted => exact h.halt .frontierEmpty
  | taken e _ hrest => exact h.taken hrest _
  | looked e hnode hrest _ hl hnoted => exact h.looked hp hnode hrest hl hnoted _ _
  | @found node _ step _ _ hnode hrest _ _ hrecord =>
      have htaken := h.taken hrest step
      refine Storable.record ?_ hrecord
      refine ⟨h.initialState, htaken.frontier, h.seen, h.distinct, h.history, fun n hn => ?_,
        fun _ => rfl⟩
      obtain rfl := Option.some.inj hn
      exact h.frontier node hnode
  | @expanded node _ _ step _ _ _ _ _ hnode hrest _ hl hnoted hnew hrecord =>
      have hlooked := h.looked hp hnode hrest hl hnoted (.whole (node.depth + 1)) step
      refine Storable.record ?_ hrecord
      refine ⟨h.initialState, List.forall_mem_append.mpr ⟨hlooked.frontier, fun n hn => ?_⟩,
        hlooked.seen, hlooked.distinct, h.history, h.solution, h.found⟩
      obtain ⟨a, hmem, hactions⟩ := hnew n hn
      have hparent := h.frontier node hnode
      obtain ⟨ha, hs⟩ := hp.isProper_of_mem_below hparent.state hl _ hmem
      refine ⟨hs, ?_⟩
      rw [hactions]
      exact List.forall_mem_append.mpr ⟨hparent.actions, List.forall_mem_singleton.mpr ha⟩

/-- **A step keeps a search storable**, whether it fails or not. -/
theorem Storable.advance (h : search.Storable) (hp : p.Proper) :
    (search.advance p policy bound verbose memory).search.Storable :=
  h.leaves hp (leaves_of_advance rfl)

/-! ## Every search that a problem can come to -/

/-- The searches that are begun from a proper state and continued by steps, be they of one policy or
of several, and whether they fail or not.  A search may be halted at any point. -/
inductive Reachable (p : Problem) : Search → Prop
  | start {s : State} (hs : s.Proper) : Reachable p (start s)
  | advance {search : Search} {M : Type} (policy : Policy M) (bound : Option Count) (verbose : Bool)
      (memory : M) (h : Reachable p search) :
      Reachable p (search.advance p policy bound verbose memory).search
  | halt {search : Search} (cause : HaltCause) (h : Reachable p search) :
      Reachable p (search.halt cause)

/-- **Every search that a problem can come to is storable.** -/
theorem Reachable.storable (hp : p.Proper) (h : Reachable p search) : search.Storable := by
  induction h with
  | start hs => exact storable_start hs
  | advance policy bound verbose memory _ ih => exact ih.advance hp
  | halt cause _ ih => exact ih.halt cause

/-- What neither a step nor a halt takes from a search, a run leaves it as well. -/
theorem invariant_of_runFor {Inv : Search → Prop}
    (hadvance : ∀ search memory, Inv search →
      Inv (search.advance p policy bound verbose memory).search)
    (hhalt : ∀ search cause, Inv search → Inv (search.halt cause)) (h : Inv search)
    {limits : TimedLimits} {rounds reading : Nat} {checkpoint : Option Search} :
    Inv (search.runFor p policy bound verbose limits rounds reading memory printed
      checkpoint).search := by
  have hfinish : ∀ search memory printed checkpoint, Inv search →
      Inv (finish (M := M) search memory printed checkpoint).search := by
    intro search memory printed checkpoint h
    rw [finish]
    split
    · exact hhalt _ _ h
    · exact h
  induction rounds generalizing reading search memory printed checkpoint with
  | zero => exact hfinish _ _ _ _ h
  | succ rounds ih =>
      rw [Search.runFor]
      split
      · exact h
      · exact hfinish _ _ _ _ h
      · split
        · exact hfinish _ _ _ _ h
        · split
          · exact h
          · exact hfinish _ _ _ _ (hhalt _ _ h)
          · have hnext := hadvance _ memory h
            dsimp only
            split
            · exact hnext
            · exact ih hnext

/-- **A run leaves a search behind that the problem can come to.** -/
theorem Reachable.runFor (h : Reachable p search) {limits : TimedLimits} {rounds reading : Nat}
    {checkpoint : Option Search} :
    Reachable p
      (search.runFor p policy bound verbose limits rounds reading memory printed
      checkpoint).search :=
  invariant_of_runFor (fun _ memory h => h.advance policy bound verbose memory)
    (fun _ cause h => h.halt cause) h

end Search

end HornPlan
