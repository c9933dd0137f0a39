import HornPlan.Proofs.Accounts
import HornPlan.Proofs.Resumption
import Mathlib.Data.List.ProdSigma
import Mathlib.Data.List.Sublists

/-!
# A search without a bound comes to an end

A search that has no depth bound and discards no nodes may take them in any order, and it queues a
state again whenever it generates it at a smaller depth than before.  It comes to an end all the
same: it finds a goal node or empties its frontier in fewer steps than `Problem.stepBound`, a number
that depends on the problem alone, unless a grounding or a test of the goal fails
(`Problem.Proper.run_ends`).

## Strategy

* **Facts.**  Effects may build compound terms, but what a grounding gives to a parameter is a
  constant.  So the facts of all states that actions lead to are among finitely many
  (`Possible.leads`), and there are no more of these states than sets of such facts
  (`length_le_of_possible`).
* **Depths.**  The state of a new node was never queued before, or it was queued deeper, for
  otherwise it would not be queued again.  In both cases a node is queued only after more states
  than its depth (`Shallow.append`), and the number of states bounds the depths.
* **Nodes.**  The nodes of one state have smaller and smaller depths (`Tracks.fading`), so that
  there are no more nodes than pairs of a state and a depth (`length_le_of_shallow`).
* **Steps.**  Every step takes a node that was queued (`Balanced.perm`).  A run with a limit of
  `stepBound` or more therefore ends before it comes to the limit (`Explored.ends`).
-/

namespace HornPlan

namespace Problem

variable {p : Problem} {s t : State} {e : Error}

/-! ## Possible states -/

/-- The facts that states can have: those of the initial state and those that actions can add. -/
def possibleFacts (p : Problem) : List Atom :=
  p.initialState.facts ++ RelaxedGraph.addable p p.initialState

/-- A state of possible facts, whose constants are objects of the problem. -/
structure Possible (p : Problem) (s : State) : Prop where
  proper : s.Proper
  subset : s.facts ⊆ p.possibleFacts
  mentioned : ∀ f ∈ s.facts, RelaxedGraph.Mentioned p p.initialState f

theorem Proper.possible_initialState (hp : p.Proper) : p.Possible p.initialState :=
  ⟨hp.initialState, List.subset_append_left _ _,
    fun f hf _ hc => RelaxedGraph.mem_objects.mpr (Or.inl ⟨f, hf, hc⟩)⟩

theorem Possible.successor (h : p.Possible s) (hp : p.Proper) {l : List (Action × State)}
    (hl : p.successors s = .ok l) {a : Action} (hmem : (a, t) ∈ l) : p.Possible t := by
  have hground := hp.groundedAt_of_mem_successors h.proper hl hmem
  have hproper : ∀ f ∈ a.adds, f.isProper := fun f hf => (hground.closed_adds hp f hf).1
  obtain ⟨schema, hschema, entailed, σ, hentailed, hσ⟩ := hground
  have hlisted : ∀ f ∈ p.order.listing s, RelaxedGraph.Mentioned p p.initialState f := fun f hf =>
    h.mentioned f (Enumeration.mem_listing.mp hf)
  -- a fact of the successor was there before, or the action has added it
  have hfacts : ∀ f ∈ t.facts, f ∈ p.possibleFacts ∧ RelaxedGraph.Mentioned p p.initialState f := by
    obtain ⟨-, -, -, -, -, -, rfl⟩ := exists_of_mem_successors h.proper hl hmem
    intro f hf
    rcases (State.mem_insertAll hproper).mp hf with hadded | hkept
    · obtain ⟨haddable, hmentioned⟩ :=
        RelaxedGraph.mem_addable hp hlisted hentailed hschema hσ hadded
      exact ⟨List.mem_append_right _ haddable, hmentioned⟩
    · have hold := ((State.mem_removeAll h.proper).mp hkept).1
      exact ⟨h.subset hold, h.mentioned f hold⟩
  exact ⟨hp.successor h.proper hl hmem, fun f hf => (hfacts f hf).1, fun f hf => (hfacts f hf).2⟩

/-- **Actions lead from possible states to possible states only.** -/
theorem Possible.leads (h : p.Possible s) (hp : p.Proper) {as : List Action}
    (hleads : p.Leads s as t) :
    p.Possible t := by
  induction hleads with
  | nil => exact h
  | cons hl hmem _ ih => exact ih (h.successor hp hl hmem)

/-- A possible state is known by the sublist of the possible facts that it has. -/
theorem exists_sublist (p : Problem) :
    ∃ known : State → List Atom, (∀ s, known s ∈ p.possibleFacts.sublists) ∧
    ∀ s t, p.Possible s → p.Possible t → known s = known t → s = t := by
  classical
  refine ⟨fun s => p.possibleFacts.filter (· ∈ s.facts),
    fun s => List.mem_sublists.mpr List.filter_sublist, ?_⟩
  intro s t hs ht heq
  have hmem : ∀ f, f ∈ s.facts ↔ f ∈ t.facts := by
    intro f
    have hiff :
        f ∈ p.possibleFacts.filter (· ∈ s.facts) ↔ f ∈ p.possibleFacts.filter (· ∈ t.facts) :=
      iff_of_eq (congrArg (f ∈ ·) heq)
    simp only [List.mem_filter, decide_eq_true_eq] at hiff
    exact ⟨fun hf => (hiff.mp ⟨hs.subset hf, hf⟩).2, fun hf => (hiff.mpr ⟨ht.subset hf, hf⟩).2⟩
  exact State.eq_of_facts_eq (s.facts_ordered.eq_of_mem_iff t.facts_ordered hmem)
    (hs.proper.others.trans ht.proper.others.symm)

/-- **There are no more possible states than sets of possible facts.** -/
theorem length_le_of_possible {states : List State} (hnodup : states.Nodup)
    (hstates : ∀ s ∈ states, p.Possible s) :
    states.length ≤ 2 ^ p.possibleFacts.length := by
  obtain ⟨known, hknown, hinjective⟩ := p.exists_sublist
  have hdistinct : (states.map known).Nodup :=
    hnodup.map_on fun s hs t ht => hinjective s t (hstates s hs) (hstates t ht)
  have hsub : states.map known ⊆ p.possibleFacts.sublists := by
    intro facts hfacts
    obtain ⟨s, -, rfl⟩ := List.mem_map.mp hfacts
    exact hknown s
  calc states.length = (states.map known).length := (List.length_map known).symm
    _ ≤ p.possibleFacts.sublists.length := length_le_of_nodup_of_subset hdistinct hsub
    _ = 2 ^ p.possibleFacts.length := List.length_sublists _

/-- A number of steps that no search comes to which discards no nodes: more than there are pairs of
a possible state and a depth below the number of such states. -/
def stepBound (p : Problem) : Nat :=
  4 ^ p.possibleFacts.length + 1

/-! ## Failures at a state -/

/-- What a search asks about a state fails: the grounding of an action, or a goal that is a test. -/
def FailsAt (p : Problem) (s : State) (e : Error) : Prop :=
  (∃ schema ∈ p.actions, schema.groundings (p.order.listing s) p.knowledge = .error e) ∨
    ∃ passes, p.goal = .test passes ∧ passes s = .error e

theorem Proper.failsAt_of_reaches (hp : p.Proper) (hs : s.Proper) (h : p.reaches s = .error e) :
    p.FailsAt s e := by
  cases hgoal : p.goal with
  | conjunction goals =>
      obtain ⟨reached, hreached⟩ := hp.exists_reaches hgoal hs
      cases h.symm.trans hreached
  | test passes =>
      rw [reaches, hgoal] at h
      exact Or.inr ⟨passes, hgoal, h⟩

end Problem

namespace Search

variable {p : Problem} {M : Type} {policy : Policy M} {bound : Option Count} {verbose : Bool}
  {search next : Search} {memory memory' : M} {seen seen' : List (State × Count)}
  {nodes new : List Node}

/-! ## Depths -/

/-- There are more states than the depth of any node. -/
def Shallow (nodes : List Node) : Prop :=
  ∀ n ∈ nodes, ∃ states : List State, states.Nodup ∧ states ⊆ nodes.map Node.state ∧
    n.depth < states.length

theorem shallow_singleton (s : State) : Shallow [⟨s, [], 0⟩] := by
  intro n hn
  obtain rfl := List.mem_singleton.mp hn
  exact ⟨[s], List.nodup_singleton s, List.Subset.refl _, Nat.zero_lt_one⟩

/-- **New nodes are no deeper than there are states**, since a state is queued again only at a
smaller depth. -/
theorem Shallow.append {parent : Node} (h : Shallow nodes) (htracks : Tracks nodes seen)
    (hparent : parent ∈ nodes) (hnew : Queues seen new seen')
    (hchildren : ∀ n ∈ new, ChildOf p parent n) : Shallow (nodes ++ new) := by
  have hgrows : nodes.map Node.state ⊆ (nodes ++ new).map Node.state :=
    List.map_subset _ (List.subset_append_left nodes new)
  have hold : ∀ n ∈ nodes, ∃ states : List State, states.Nodup ∧
      states ⊆ (nodes ++ new).map Node.state ∧
      n.depth < states.length := by
    intro n hn
    obtain ⟨states, hnodup, hsub, hlt⟩ := h n hn
    exact ⟨states, hnodup, fun s hs => hgrows (hsub hs), hlt⟩
  intro n hn
  rcases List.mem_append.mp hn with hn | hn
  · exact hold n hn
  obtain ⟨states, hnodup, hsub, hlt⟩ := h parent hparent
  by_cases hmem : n.state ∈ states
  · -- an earlier node has the state, and that one is deeper
    obtain ⟨m, hm, hstate⟩ := List.mem_map.mp (hsub hmem)
    obtain ⟨e, he, hnoted⟩ := htracks.noted m hm
    have hdeeper : n.depth < e := hnew.smaller n hn e (hstate ▸ hnoted)
    obtain ⟨states', hnodup', hsub', hlt'⟩ := hold m hm
    exact ⟨states', hnodup', hsub', by omega⟩
  · -- the state comes on top of those that are there for the parent
    refine ⟨n.state :: states, List.nodup_cons.mpr ⟨hmem, hnodup⟩, ?_, ?_⟩
    · exact List.cons_subset.mpr ⟨List.mem_map_of_mem (List.mem_append_right nodes hn),
        fun s hs => hgrows (hsub hs)⟩
    · rw [(hchildren n hn).depth_eq, List.length_cons]
      omega

/-- **No more nodes are queued than there are pairs of a possible state and a depth.** -/
theorem length_le_of_shallow (hpossible : ∀ n ∈ nodes, p.Possible n.state)
    (hshallow : Shallow nodes) (htracks : Tracks nodes seen) :
    nodes.length ≤ 4 ^ p.possibleFacts.length := by
  obtain ⟨known, hknown, hinjective⟩ := p.exists_sublist
  have hdepth : ∀ n ∈ nodes, n.depth < 2 ^ p.possibleFacts.length := by
    intro n hn
    obtain ⟨states, hnodup, hsub, hlt⟩ := hshallow n hn
    refine hlt.trans_le (Problem.length_le_of_possible hnodup fun s hs => ?_)
    obtain ⟨m, hm, rfl⟩ := List.mem_map.mp (hsub hs)
    exact hpossible m hm
  -- nodes of one state have different depths, since a state is queued again only at a smaller one
  have hdistinct : (nodes.map fun n => (known n.state, n.depth)).Nodup := by
    refine List.pairwise_map.mpr (htracks.fading.imp_of_mem ?_)
    intro m n hm hn hfading heq
    obtain ⟨hstate, hsame⟩ := Prod.mk.inj heq
    have hlt := hfading (hinjective _ _ (hpossible m hm) (hpossible n hn) hstate)
    omega
  have hsub : (nodes.map fun n => (known n.state, n.depth))
      ⊆ p.possibleFacts.sublists ×ˢ List.range (2 ^ p.possibleFacts.length) := by
    intro pair hpair
    obtain ⟨n, hn, rfl⟩ := List.mem_map.mp hpair
    exact List.mem_product.mpr ⟨hknown n.state, List.mem_range.mpr (hdepth n hn)⟩
  calc nodes.length = (nodes.map fun n => (known n.state, n.depth)).length :=
        (List.length_map _).symm
    _ ≤ (p.possibleFacts.sublists ×ˢ List.range (2 ^ p.possibleFacts.length)).length :=
        length_le_of_nodup_of_subset hdistinct hsub
    _ = 2 ^ p.possibleFacts.length * 2 ^ p.possibleFacts.length := by
        rw [List.length_product, List.length_sublists, List.length_range]
    _ = 4 ^ p.possibleFacts.length := (Nat.mul_pow 2 2 _).symm

/-! ## Steps -/

/-- A search has found a goal node and halted for that reason. -/
structure HasFound (p : Problem) (search : Search) : Prop where
  halted : search.halted = true
  reason : search.haltReason = .cause .goalReached
  solution : ∃ node, search.solution = some node ∧ p.reaches node.state = .ok true

theorem Steps.running_or_hasFound (hstep : Steps p policy bound search memory next memory')
    (hrunning : search.Running) : next.Running ∨ HasFound p next := by
  cases hstep with
  | found _ _ hreaches => exact Or.inr ⟨rfl, rfl, _, rfl, hreaches⟩
  | cut | expanded => exact Or.inl ⟨hrunning.haltFlag, hrunning.haltReason, hrunning.solution⟩

theorem Balanced.wellFormed {b : Option Int} {turns : List Turn} (h : Balanced p b turns search) :
    search.WellFormed := by
  obtain ⟨es, hes, hstep, -⟩ := h.recorded
  exact ⟨h.storable.nodes, h.tidy, ⟨_, hstep⟩, ⟨_, hes⟩⟩

/-- What holds at every point of a search without a bound: its account is balanced, the nodes queued
stand on paths and are shallow, and it has not halted unless it has found a goal node. -/
structure Explored (p : Problem) (turns : List Turn) (search : Search) : Prop where
  balanced : Balanced p none turns search
  leads : ∀ n ∈ queuedIn p.initialState turns, ∃ as, p.Leads p.initialState as n.state
  shallow : Shallow (queuedIn p.initialState turns)
  status : search.Running ∨ HasFound p search

theorem explored_start (hp : p.Proper) : Explored p [] (start p.initialState) := by
  refine ⟨balanced_start hp, fun n hn => ?_, shallow_singleton p.initialState,
    Or.inl (running_start _)⟩
  obtain rfl := List.mem_singleton.mp hn
  exact ⟨[], .nil _⟩

section

variable {turns : List Turn} {outcome : Outcome M} {e : Error}

theorem Explored.mem_queuedIn (h : Explored p turns search) {n : Node} (hn : n ∈ search.frontier) :
    n ∈ queuedIn p.initialState turns :=
  h.balanced.perm.mem_iff.mpr (List.mem_append_right _ hn)

variable (hp : p.Proper) (hkeep : policy.prune = keepAll)
  (hchoose : ∀ memory frontier, frontier ≠ [] →
    ∃ index < frontier.length, (policy.choose memory frontier).answer = .ok index)

include hp in
/-- **Fewer steps have been taken than the bound.** -/
theorem Explored.step_lt (h : Explored p turns search) :
    ∃ steps < p.stepBound, search.step = .whole steps := by
  obtain ⟨es, -, hstep, hlengths⟩ := h.balanced.recorded
  refine ⟨es.length, ?_, hstep⟩
  have hturns : es.length = turns.length := by simpa using congrArg List.length hlengths
  have hqueued := h.balanced.perm.length_eq
  rw [List.length_append, List.length_map] at hqueued
  have hle : (queuedIn p.initialState turns).length ≤ 4 ^ p.possibleFacts.length := by
    refine length_le_of_shallow (fun n hn => ?_) h.shallow h.balanced.tracks
    obtain ⟨as, hleads⟩ := h.leads n hn
    exact hp.possible_initialState.leads hp hleads
  rw [Problem.stepBound]
  omega

include hp hkeep in
/-- A step that takes a node and does not fail keeps what holds at every point. -/
theorem Explored.advance (h : Explored p turns search) (hrunning : search.Running)
    (hnonempty : search.frontier ≠ [])
    (hstep : search.advance p policy none verbose memory = outcome)
    (herror : outcome.error = none) :
    ∃ turn, Explored p (turns ++ [turn]) outcome.search := by
  have hbalanced := h.balanced.advance hp hkeep hstep herror
  have hsteps :
      Steps p policy ((none : Option Int).map .whole) search memory outcome.search outcome.memory :=
    (steps_of_advance hstep herror).resolve_left fun hempty => hnonempty hempty.1
  obtain ⟨node, rest, _, new, _, htakes, hfrontier, -, -, -, hqueues, -, -, hchildren, -⟩ :=
    hsteps.turn hp hkeep h.balanced.storable.frontier h.balanced.tidy
  rw [htakes.turn?_eq hfrontier, Option.toList_some] at hbalanced
  have hnode : node ∈ queuedIn p.initialState turns := h.mem_queuedIn htakes.mem
  refine ⟨⟨node, new, outcome.search.seen⟩, hbalanced, ?_, ?_, hsteps.running_or_hasFound hrunning⟩
  · rw [queuedIn_snoc]
    refine List.forall_mem_append.mpr ⟨h.leads, fun n hn => ?_⟩
    obtain ⟨as, hleads⟩ := h.leads node hnode
    obtain ⟨l, a, hl, hmem, -⟩ := hchildren n hn
    exact ⟨as ++ [a], hleads.snoc hl hmem⟩
  · rw [queuedIn_snoc]
    exact h.shallow.append h.balanced.tracks hnode hqueues hchildren

include hp hkeep hchoose in
/-- A step fails only where a question about the state of a node does that has been queued, if the
policy names nodes of the frontier and discards none. -/
theorem Explored.failsAt (h : Explored p turns search) (hnonempty : search.frontier ≠ [])
    (hstep : search.advance p policy none verbose memory = outcome)
    (herror : outcome.error = some e) :
    ∃ as s, p.Leads p.initialState as s ∧ p.FailsAt s e := by
  have hfault : Fault p policy ((none : Option Int).map .whole) search memory e outcome.search :=
    h.balanced.wellFormed.advance_fault hp hstep herror
  obtain ⟨index, hindex, hchosen⟩ := hchoose memory search.frontier hnonempty
  have hpath : ∀ n ∈ search.frontier, ∃ as, p.Leads p.initialState as n.state ∧ n.state.Proper := by
    intro n hn
    obtain ⟨as, hleads⟩ := h.leads n (h.mem_queuedIn hn)
    exact ⟨as, hleads, hleads.proper hp hp.initialState⟩
  generalize outcome.search = left at hfault
  -- the policy does not fail, so what fails is a question about the node that was taken
  cases hfault with
  | choosing hfailed => cases hfailed.symm.trans hchosen
  | naming _ hnamed hnone _ =>
      obtain rfl := Except.ok.inj (hnamed.symm.trans hchosen)
      exact absurd (List.getElem?_eq_none_iff.mp hnone) (not_le.mpr hindex)
  | testing htakes _ hreaches =>
      obtain ⟨as, hleads, hproper⟩ := hpath _ htakes.mem
      exact ⟨as, _, hleads, hp.failsAt_of_reaches hproper hreaches⟩
  | expanding htakes _ _ _ hl =>
      obtain ⟨as, hleads, hproper⟩ := hpath _ htakes.mem
      exact ⟨as, _, hleads, Or.inl (Problem.exists_of_successors_eq_error hproper hl)⟩
  | discarding _ _ _ _ _ _ _ hprune =>
      rw [hkeep] at hprune
      cases hprune

/-! ## Runs -/

/-- A search has come to its end: it has found a goal node, or there are no nodes left. -/
structure Ended (p : Problem) (search : Search) : Prop where
  halted : search.halted = true
  few : ∃ steps < p.stepBound, search.step = .whole steps
  reason : HasFound p search ∨
    search.haltReason = .cause .frontierEmpty ∧ search.frontier = [] ∧ search.solution = none

include hp in
/-- A search at rest has come to its end, since it has not come to the limit. -/
theorem Explored.ended_atRest (h : Explored p turns search) {limit : Int}
    (hlimit : (p.stepBound : Int) ≤ limit) (hrests : Rests limit search) :
    Ended p search.atRest := by
  obtain ⟨steps, hlt, hstep⟩ := h.step_lt hp
  rcases h.status with hrunning | hfound
  · have hempty : search.frontier = [] := by
      rcases hrests with hhalted | hempty | ⟨n, hn, hle⟩
      · cases hhalted.symm.trans hrunning.halted
      · exact hempty
      · have heq : (steps : Int) = n := Count.whole.inj (hstep.symm.trans hn)
        omega
    have hrest : search.atRest = search.halt .frontierEmpty := by
      rw [atRest, hrunning.halted, hempty]
      rfl
    rw [hrest]
    exact ⟨rfl, ⟨steps, hlt, hstep⟩, Or.inr ⟨rfl, hempty, hrunning.solution⟩⟩
  · rw [atRest_of_halted hfound.halted]
    exact ⟨hfound.halted, ⟨steps, hlt, hstep⟩, Or.inl hfound⟩

include hp hkeep hchoose in
/-- **A run comes to its end before it comes to its limit**, or a step fails. -/
theorem Explored.ends (h : Explored p turns search) {limit : Int}
    (hlimit : (p.stepBound : Int) ≤ limit) {final : Search} {error : Option Error}
    (hruns : RunsTo p policy none verbose limit search memory final error) :
    error = none ∧ Ended p final ∨
      ∃ e, error = some e ∧ ∃ as s, p.Leads p.initialState as s ∧ p.FailsAt s e := by
  induction hruns generalizing turns with
  | rests hrests => exact Or.inl ⟨rfl, h.ended_atRest hp hlimit hrests⟩
  | @failed search _ _ e hrests hstep herror =>
      have hnonempty : search.frontier ≠ [] := fun hempty => hrests (Or.inr (Or.inl hempty))
      exact Or.inr ⟨e, rfl, h.failsAt hp hkeep hchoose hnonempty hstep herror⟩
  | @step search _ _ _ _ hrests hstep herror _ ih =>
      have hnonempty : search.frontier ≠ [] := fun hempty => hrests (Or.inr (Or.inl hempty))
      have hrunning : search.Running :=
        h.status.resolve_right fun hfound => hrests (Or.inl hfound.halted)
      obtain ⟨turn, hnext⟩ := h.advance hp hkeep hrunning hnonempty hstep herror
      exact ih hnext

end

end Search

namespace Problem

variable {p : Problem}

/-- **Every search without a bound comes to an end**, in whatever order its nodes are taken, if none
are discarded.  With any limit of `stepBound` or more the search halts before it comes to the limit,
with a node that reaches the goal or with no nodes left; or it fails with the error of a grounding,
or of a goal that is a test, at a state that actions lead to from the initial one. -/
theorem Proper.run_ends (hp : p.Proper) {M : Type} {policy : Policy M}
    (hkeep : policy.prune = keepAll) (hchoose : ∀ memory frontier, frontier ≠ [] →
      ∃ index < frontier.length, (policy.choose memory frontier).answer = .ok index)
    (verbose : Bool) (memory : M) {maxNodes : Int} (hlimit : (p.stepBound : Int) ≤ maxNodes)
    {run : RunOutcome M} (hrun : (Search.start p.initialState).run p policy none verbose
      ⟨.whole maxNodes, .ok false, fun _ => .ok false⟩ memory = run) :
    (run.error = none ∧ run.search.halted = true ∧
      (∃ steps < p.stepBound, run.search.step = .whole steps) ∧
      (run.search.haltReason = .cause .goalReached ∧
          (∃ node, run.search.solution = some node ∧ p.reaches node.state = .ok true) ∨
        run.search.haltReason = .cause .frontierEmpty ∧ run.search.frontier = [] ∧
        run.search.solution = none)) ∨
    ∃ e, run.error = some e ∧ ∃ as s, p.Leads p.initialState as s ∧
      ((∃ schema ∈ p.actions, schema.groundings (p.order.listing s) p.knowledge = .error e) ∨
        ∃ passes, p.goal = .test passes ∧ passes s = .error e) := by
  have hruns :
      Search.RunsTo p policy none verbose maxNodes (Search.start p.initialState) memory run.search
      run.error := Search.runsTo_runFor rfl le_rfl hrun
  refine ((Search.explored_start hp).ends hp hkeep hchoose hlimit hruns).imp_left ?_
  rintro ⟨hnone, hended⟩
  exact ⟨hnone, hended.halted, hended.few,
    hended.reason.imp_left fun hfound => ⟨hfound.reason, hfound.solution⟩⟩

/-- Without a bound the newest node is taken until the cake is eaten and had. -/
theorem run_ends_haveCake :
    ∃ p run, Worlds.haveCake = .ok p ∧ p.Proper ∧ Policy.newest.prune = keepAll ∧
    (∀ memory frontier, frontier ≠ [] →
      ∃ index < frontier.length, (Policy.newest.choose memory frontier).answer = .ok index) ∧
    (p.stepBound : Int) ≤ 10000 ∧
    (Search.start p.initialState).run p Policy.newest none true
      ⟨.whole 10000, .ok false, fun _ => .ok false⟩ () = run ∧
    run.error = none ∧ run.search.halted = true ∧
    (∃ steps < p.stepBound, run.search.step = .whole steps) ∧
    run.search.haltReason = .cause .goalReached ∧
    ∃ node, run.search.solution = some node ∧ p.reaches node.state = .ok true := by
  obtain ⟨p, hcake, hproper⟩ := exists_haveCake
  have hchoose : ∀ (memory : Unit) (frontier : List Node), frontier ≠ [] →
      ∃ index < frontier.length, (Policy.newest.choose memory frontier).answer = .ok index :=
    fun _ frontier hnonempty => ⟨_, Nat.sub_one_lt (List.length_pos_iff.mpr hnonempty).ne', rfl⟩
  have hchecks : (Worlds.haveCake.toOption.map fun p =>
      let run := (Search.start p.initialState).run p Policy.newest none true
        ⟨.whole 10000, .ok false, fun _ => .ok false⟩ ()
      decide (p.stepBound ≤ 10000) && run.error.isNone && run.search.found) = some true := by
    decide +kernel
  rw [hcake] at hchecks
  obtain ⟨hbelow, hfound⟩ := Bool.and_eq_true_iff.mp (Option.some.inj hchecks)
  obtain ⟨hlimit, hnone⟩ := Bool.and_eq_true_iff.mp hbelow
  have hlimit : (p.stepBound : Int) ≤ 10000 := by exact_mod_cast of_decide_eq_true hlimit
  refine ⟨p, _, hcake, hproper, rfl, hchoose, hlimit, rfl, ?_⟩
  -- the run is found to end without a failure and with a solution, so of three ends it has the
  -- first
  rcases hproper.run_ends rfl hchoose true () hlimit rfl with
    ⟨herror, hhalted, hfew, hgoal | ⟨-, -, hunsolved⟩⟩ | ⟨e, herror, -⟩
  · exact ⟨herror, hhalted, hfew, hgoal⟩
  · rw [Search.found, hunsolved] at hfound
    cases hfound
  · rw [herror] at hnone
    cases hnone

end Problem

end HornPlan
