import HornPlan.Proofs.Conclusions
import HornPlan.Proofs.Strategies

/-!
# Policies that mirror each other

Two policies mirror each other when from related memories they take the same nodes, discard the same
nodes, and come to related memories again (`Mirrors`).  A step with one of them then does what a
step with the other does, whatever they remember and print (`Mirrors.advance`); two runs differ only
in what a step looks at, function by function.

A policy that mirrors itself under all valid memories is *forgetful*: no search shows what it
remembers.  So are the strategies that ask no person (`StrategyName.exists_forgetful`).  Breadth
first and depth first remember nothing, and A\* only what it can compute again.
-/

namespace HornPlan

namespace Search

variable {p : Problem} {M M' : Type} {policy : Policy M} {policy' : Policy M'} {R : M → M' → Prop}
  {Fit : List Node → Prop}

/-- From related memories two policies give the same answers, and their memories stay related: where
they take a node, for all fit frontiers, and where they discard nodes, for all proper states. -/
structure Mirrors (policy : Policy M) (policy' : Policy M') (R : M → M' → Prop)
    (Fit : List Node → Prop) :
    Prop where
  choose : ∀ {memory memory' frontier}, R memory memory' → Fit frontier → frontier ≠ [] →
    (policy.choose memory frontier).answer = (policy'.choose memory' frontier).answer ∧
      R (policy.choose memory frontier).memory (policy'.choose memory' frontier).memory
  prune : ∀ {memory memory'} (node : Node) (search : Search), R memory memory' → node.state.Proper →
    (policy.prune memory node search).answer = (policy'.prune memory' node search).answer ∧
      R (policy.prune memory node search).memory (policy'.prune memory' node search).memory

/-- Two outcomes differ at most in what is remembered and printed. -/
structure Agrees (R : M → M' → Prop) (outcome : Outcome M) (outcome' : Outcome M') : Prop where
  search : outcome.search = outcome'.search
  error : outcome.error = outcome'.error
  memory : R outcome.memory outcome'.memory

/-! ## Steps -/

section

variable {search : Search} {memory : M} {memory' : M'} {bound : Option Count}
  {verbose verbose' : Bool} {printed printed' : String} {node : Node}

theorem Mirrors.addSuccessors (h : Mirrors policy policy' R Fit) {parent : Node}
    {l : List (Action × State)} (hl : ∀ successor ∈ l, successor.1.isPrintable ∧ successor.2.Proper)
    {fresh : List Node} (hmemory : R memory memory') :
    Agrees R (addSuccessors policy verbose parent fresh search memory printed l).1
        (addSuccessors policy' verbose' parent fresh search memory' printed' l).1 ∧
      (addSuccessors policy verbose parent fresh search memory printed l).2
        = (addSuccessors policy' verbose' parent fresh search memory' printed' l).2 := by
  induction l generalizing fresh search memory memory' printed printed' with
  | nil => exact ⟨⟨rfl, rfl, hmemory⟩, rfl⟩
  | cons successor l ih =>
      obtain ⟨⟨hprintable, hs⟩, hrest⟩ := List.forall_mem_cons.mp hl
      rw [Search.addSuccessors, Search.addSuccessors]
      cases seenBy search.seen successor.2 (parent.depth + 1) with
      | error e => exact ⟨⟨rfl, rfl, hmemory⟩, rfl⟩
      | ok seen =>
          cases seen with
          | true => exact ih hrest hmemory
          | false =>
              obtain ⟨hanswer, hnext⟩ :=
                h.prune ⟨successor.2, parent.actions ++ [successor.1], search.step⟩
                { search with
                  seen := recordDepth search.seen successor.2 (.whole (parent.depth + 1)) }
                hmemory hs
              dsimp only
              rw [hanswer, hprintable, Bool.not_true, Bool.and_false, Bool.and_false]
              rcases (policy'.prune memory' _ _).answer with e | pruned
              · exact ⟨⟨rfl, rfl, hnext⟩, rfl⟩
              · cases pruned <;> exact ih hrest hnext

theorem Mirrors.expandBelow (h : Mirrors policy policy' R Fit) (hp : p.Proper)
    (hnode : node.state.Proper) (hmemory : R memory memory') : Agrees R
      (expandBelow p policy bound verbose node search memory printed)
      (expandBelow p policy' bound verbose' node search memory' printed') := by
  unfold Search.expandBelow
  cases atBound bound node with
  | error e => exact ⟨rfl, rfl, hmemory⟩
  | ok cut =>
      dsimp only
      cases hl : (if cut = true then .ok [] else p.successors node.state) with
      | error e => exact ⟨rfl, rfl, hmemory⟩
      | ok l =>
          have hsuccessors : ∀ successor ∈ l, successor.1.isPrintable ∧ successor.2.Proper :=
            fun successor hmem => (hp.isProper_of_mem_below hnode hl successor hmem).imp_left
              Action.isPrintable_of_isProper
          dsimp only
          -- both searches add the same nodes, and differ in their memory and in what was printed
          generalize hadded : Search.addSuccessors policy verbose node [] search memory _ l = added
          generalize hadded' : Search.addSuccessors policy' verbose' node [] search memory' _ l =
            added'
          have hagrees : Agrees R added.1 added'.1 ∧ added.2 = added'.2 := by
            rw [← hadded, ← hadded']
            exact h.addSuccessors hsuccessors hmemory
          obtain ⟨⟨next, _, _, error⟩, fresh⟩ := added
          obtain ⟨⟨next', _, _, error'⟩, fresh'⟩ := added'
          obtain ⟨⟨rfl, rfl, hnext⟩, rfl⟩ := hagrees
          cases error with
          | some e => exact ⟨rfl, rfl, hnext⟩
          | none =>
              dsimp only
              rcases Search.record _ _ with ⟨recorded, _ | e⟩
              · exact ⟨rfl, rfl, hnext⟩
              · exact ⟨rfl, rfl, hnext⟩

theorem Mirrors.expandNode (h : Mirrors policy policy' R Fit) (hp : p.Proper)
    (hnode : node.state.Proper) (hmemory : R memory memory') : Agrees R
      (expandNode p policy bound verbose node search memory printed)
      (expandNode p policy' bound verbose' node search memory' printed') := by
  unfold Search.expandNode
  rcases p.reaches node.state with e | _ | _
  · exact ⟨rfl, rfl, hmemory⟩
  · exact h.expandBelow hp hnode hmemory
  · dsimp only
    rcases Search.record _ _ with ⟨recorded, _ | e⟩
    · exact ⟨rfl, rfl, hmemory⟩
    · exact ⟨rfl, rfl, hmemory⟩

/-- What a step says at its start is no matter where the node can be printed. -/
theorem exists_header (hprintable : ∀ a ∈ node.actions, a.isPrintable) (verbose : Bool) :
    ∃ header, (if verbose then search.header node else .ok "") = .ok header := by
  cases verbose with
  | false => exact ⟨"", rfl⟩
  | true =>
      rw [Search.header, Node.name?_eq_ok hprintable]
      exact ⟨_, rfl⟩

/-- **A step does what a step with a policy that mirrors it does.** -/
theorem Mirrors.advance (h : Mirrors policy policy' R Fit) (hp : p.Proper)
    (hfit : Fit search.frontier)
    (hnodes : ∀ n ∈ search.frontier, n.state.Proper ∧ ∀ a ∈ n.actions, a.isPrintable)
    (hmemory : R memory memory') : Agrees R (search.advance p policy bound verbose memory)
      (search.advance p policy' bound verbose' memory') := by
  unfold Search.advance
  by_cases hempty : search.frontier = []
  · rw [hempty]
    exact ⟨rfl, rfl, hmemory⟩
  · obtain ⟨hanswer, hchosen⟩ := h.choose hmemory hfit hempty
    rw [List.isEmpty_eq_false_iff.mpr hempty, if_neg Bool.false_ne_true, if_neg Bool.false_ne_true]
    dsimp only
    rw [hanswer]
    rcases (policy'.choose memory' search.frontier).answer with e | index
    · exact ⟨rfl, rfl, hchosen⟩
    · dsimp only
      cases hnode : search.frontier[index]? with
      | none => exact ⟨rfl, rfl, hchosen⟩
      | some node =>
          obtain ⟨hproper, hprintable⟩ := hnodes node (List.mem_of_getElem? hnode)
          dsimp only
          rcases search.step.next with e | step
          · exact ⟨rfl, rfl, hchosen⟩
          · obtain ⟨header, hheader⟩ := exists_header hprintable verbose
            obtain ⟨header', hheader'⟩ := exists_header hprintable verbose'
            dsimp only
            rw [hheader, hheader']
            exact h.expandNode hp hproper hchosen

end

/-! ## Policies whose memory does not show -/

/-- The states of all nodes are proper. -/
def ProperStates (frontier : List Node) : Prop :=
  ∀ n ∈ frontier, n.state.Proper

/-- A policy that gives the same answers from all valid memories. -/
abbrev Forgetful (policy : Policy M) (Valid : M → Prop) : Prop :=
  Mirrors policy policy (fun memory memory' => Valid memory ∧ Valid memory') ProperStates

theorem forgetful_at (place : List Node → Nat) : Forgetful (Policy.at place) fun _ => True :=
  ⟨fun hmemory _ _ => ⟨rfl, hmemory⟩, fun _ _ hmemory _ => ⟨rfl, hmemory⟩⟩

end Search

variable {p : Problem}

/-- Which node has the least cost does not depend on the estimates that are remembered. -/
theorem Estimates.Valid.answer_leastCost {known known' : Estimates} (h : known.Valid p)
    (h' : known'.Valid p) {nodes : List Node} (hnodes : Search.ProperStates nodes) (place : Nat)
    (best : Option (Nat × Nat)) :
    (leastCost p place best known nodes).answer = (leastCost p place best known' nodes).answer := by
  induction nodes generalizing known known' place best with
  | nil => rfl
  | cons node rest ih =>
      obtain ⟨hnode, hrest⟩ := List.forall_mem_cons.mp hnodes
      have hnext := h.get node.state
      have hnext' := h'.get node.state
      -- both read the same estimate, remembered or not
      have hsame : (Estimates.get p known node.state).1 = (Estimates.get p known' node.state).1 :=
        (h.get_eq hnode).trans (h'.get_eq hnode).symm
      rw [leastCost, leastCost]
      generalize Estimates.get p known node.state = reading at hnext hsame
      generalize Estimates.get p known' node.state = reading' at hnext' hsame
      obtain ⟨estimate, next⟩ := reading
      obtain ⟨estimate', next'⟩ := reading'
      obtain rfl : estimate = estimate' := hsame
      rcases estimate with e | _ | estimate
      · rfl
      · rfl
      · exact ih hnext hnext' hrest _ _

theorem forgetful_leastCost : Search.Forgetful (Policy.leastCost p) (Estimates.Valid p) := by
  refine ⟨?_, ?_⟩
  · intro known known' frontier ⟨h, h'⟩ hfrontier _
    exact ⟨h.answer_leastCost h' hfrontier 0 none, valid_leastCost h frontier 0 none,
      valid_leastCost h' frontier 0 none⟩
  · intro known known' node _ ⟨h, h'⟩ hnode
    refine ⟨?_, h.get node.state, h'.get node.state⟩
    change (Estimates.get p known node.state).1.map _ = (Estimates.get p known' node.state).1.map _
    rw [h.get_eq hnode, h'.get_eq hnode]

/-- **No strategy but the one that asks a person has a memory that shows.** -/
theorem StrategyName.exists_forgetful {name : StrategyName} (hname : name ≠ .interactive)
    (p : Problem) (lines : List String) : ∃ Valid : (name.strategy p lines).Memory → Prop,
      Valid (name.strategy p lines).memory ∧
      Search.Forgetful (name.strategy p lines).policy Valid := by
  cases name with
  | breadthFirst => exact ⟨_, trivial, Search.forgetful_at _⟩
  | depthFirst => exact ⟨_, trivial, Search.forgetful_at _⟩
  | astar => exact ⟨_, Estimates.valid_empty, forgetful_leastCost⟩
  | interactive => exact absurd rfl hname

end HornPlan
