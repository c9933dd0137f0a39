import HornPlan.Proofs.Conclusions
import HornPlan.Proofs.Strategies

/-!
# What A\* takes

A\* takes a node with the least sum of depth and estimate (`Search.Takes.least`).  Where every node
on the frontier has an estimate or the computation of it fails, choosing fails only where a
grounding does, and so does discarding (`Problem.Proper.reliable_leastCost`).  The nodes it keeps
have an estimate, and so has the initial state unless the relaxed graph rules the goal out before
the first step (`Problem.Proper.hasEstimate_of_unreachable?`).  So a depth is never added to an
estimate that is not there (`Search.addsEstimates_of_continues`).
-/

namespace HornPlan

variable {p : Problem} {known : Estimates} {nodes : List Node} {place index b : Nat}
  {best : Option (Nat × Nat)}

/-! ## The least cost -/

/-- The sum of the depth of a node and its estimate. -/
def Costs (p : Problem) (n : Node) (cost : Nat) : Prop :=
  ∃ estimate, p.estimate n.state = .ok (some estimate) ∧ cost = n.depth + estimate

/-- The best of the nodes so far and one more. -/
def better (best : Option (Nat × Nat)) (place cost : Nat) : Option (Nat × Nat) :=
  match best with
  | some (earlier, least) => if cost < least then some (place, cost) else some (earlier, least)
  | none => some (place, cost)

theorem leastCost_cons {node : Node} {estimate : Nat} {next : Estimates}
    (h : Estimates.get p known node.state = (.ok (some estimate), next)) :
    leastCost p place best known (node :: nodes)
      = leastCost p (place + 1) (better best place (node.depth + estimate)) next nodes := by
  rw [leastCost, h]
  rfl

theorem exists_better (best : Option (Nat × Nat)) (place cost : Nat) : ∃ first least,
    better best place cost = some (first, least) ∧
    (best = some (first, least) ∨ first = place ∧ least = cost) ∧ least ≤ cost ∧
    ∀ earlier other, best = some (earlier, other) → least ≤ other := by
  cases best with
  | none => exact ⟨place, cost, rfl, Or.inr ⟨rfl, rfl⟩, le_rfl, nofun⟩
  | some pair =>
      obtain ⟨earlier, least⟩ := pair
      by_cases hlt : cost < least
      · refine ⟨place, cost, if_pos hlt, Or.inr ⟨rfl, rfl⟩, le_rfl, ?_⟩
        rintro _ _ ⟨⟩
        exact hlt.le
      · refine ⟨earlier, least, if_neg hlt, Or.inl rfl, not_lt.mp hlt, ?_⟩
        rintro _ _ ⟨⟩
        exact le_rfl

/-- The place that is named is that of the best node so far or of a node of the list, and no node
costs less. -/
theorem leastCost_spec (h : known.Valid p) (hproper : ∀ n ∈ nodes, n.state.Proper)
    (hnonempty : best = none → nodes ≠ [])
    (hanswer : (leastCost p place best known nodes).answer = .ok index) : ∃ least,
      (best = some (index, least) ∨
        ∃ i node, index = place + i ∧ nodes[i]? = some node ∧ Costs p node least) ∧
      (∀ n ∈ nodes, ∃ cost, Costs p n cost ∧ least ≤ cost) ∧
      ∀ earlier other, best = some (earlier, other) → least ≤ other := by
  -- induction on the nodes, with the best one so far as an argument
  induction nodes generalizing place best known with
  | nil =>
      cases best with
      | none => exact absurd rfl (hnonempty rfl)
      | some pair =>
          obtain ⟨earlier, least⟩ := pair
          obtain rfl := Except.ok.inj hanswer
          refine ⟨least, Or.inl rfl, fun n hn => absurd hn List.not_mem_nil, ?_⟩
          rintro _ _ ⟨⟩
          exact le_rfl
  | cons node rest ih =>
      obtain ⟨hnode, hrest⟩ := List.forall_mem_cons.mp hproper
      have hget := h.get_eq hnode
      have hvalid := h.get node.state
      rcases hfirst : Estimates.get p known node.state with ⟨_ | _ | estimate, next⟩
      · rw [leastCost, hfirst] at hanswer
        cases hanswer
      · rw [leastCost, hfirst] at hanswer
        cases hanswer
      · rw [hfirst] at hget hvalid
        have hcosts : Costs p node (node.depth + estimate) := ⟨estimate, hget.symm, rfl⟩
        obtain ⟨first, least, hbetter, horigin, hcost, hother⟩ :=
          exists_better best place (node.depth + estimate)
        rw [leastCost_cons hfirst, hbetter] at hanswer
        obtain ⟨final, hplace, hall, hearlier⟩ := ih hvalid hrest (fun heq => by cases heq) hanswer
        have hle : final ≤ least := hearlier first least rfl
        refine ⟨final, ?_, ?_, ?_⟩
        · rcases hplace with heq | ⟨i, later, rfl, hlater, hcosts⟩
          · obtain ⟨rfl, rfl⟩ := Prod.mk.inj (Option.some.inj heq)
            rcases horigin with hbest | ⟨rfl, rfl⟩
            · exact Or.inl hbest
            · exact Or.inr ⟨0, node, rfl, rfl, hcosts⟩
          · exact Or.inr ⟨i + 1, later, by omega, hlater, hcosts⟩
        · exact List.forall_mem_cons.mpr ⟨⟨_, hcosts, hle.trans hcost⟩, hall⟩
        · exact fun earlier other hbest => hle.trans (hother earlier other hbest)

/-- Choosing fails where an estimate does, or where there is none. -/
theorem exists_of_leastCost_eq_error (h : known.Valid p) (hproper : ∀ n ∈ nodes, n.state.Proper)
    {e : Error} (hanswer : (leastCost p place best known nodes).answer = .error e) :
    ∃ n ∈ nodes, p.estimate n.state = .error e ∨ p.estimate n.state = .ok none := by
  induction nodes generalizing place best known with
  | nil => cases hanswer
  | cons node rest ih =>
      obtain ⟨hnode, hrest⟩ := List.forall_mem_cons.mp hproper
      have hget := h.get_eq hnode
      have hvalid := h.get node.state
      rcases hfirst : Estimates.get p known node.state with ⟨_ | _ | estimate, next⟩
      · rw [hfirst] at hget
        rw [leastCost, hfirst] at hanswer
        obtain rfl := Except.error.inj hanswer
        exact ⟨node, List.mem_cons_self, Or.inl hget.symm⟩
      · rw [hfirst] at hget
        exact ⟨node, List.mem_cons_self, Or.inr hget.symm⟩
      · rw [hfirst] at hvalid
        rw [leastCost_cons hfirst] at hanswer
        obtain ⟨n, hn, hestimate⟩ := ih hvalid hrest hanswer
        exact ⟨n, List.mem_cons_of_mem _ hn, hestimate⟩

namespace Search

/-- **A\* takes a node of least cost.** -/
theorem Takes.least {known known' : Estimates} {frontier rest : List Node} {node : Node}
    (h : Takes (Policy.leastCost p) known frontier node rest known') (hknown : known.Valid p)
    (hproper : ∀ n ∈ frontier, n.state.Proper) : ∃ least, Costs p node least ∧
      ∀ n ∈ frontier, ∃ cost, Costs p n cost ∧ least ≤ cost := by
  obtain ⟨index, hindex, hnode, -⟩ := h.chosen
  have hnonempty : frontier ≠ [] := List.ne_nil_of_mem h.mem
  obtain ⟨least, hplace, hall, -⟩ := leastCost_spec hknown hproper (fun _ => hnonempty) hindex
  refine ⟨least, ?_, hall⟩
  rcases hplace with heq | ⟨i, later, rfl, hlater, hcosts⟩
  · cases heq
  · rw [Nat.zero_add] at hnode
    obtain rfl := Option.some.inj (hnode.symm.trans hlater)
    exact hcosts

end Search

/-! ## A\* fails only where a grounding does -/

/-- The goal has not been found to be out of reach. -/
def Problem.HasEstimate (p : Problem) (s : State) : Prop :=
  p.estimate s ≠ .ok none

theorem Problem.Proper.reliable_leastCost (hp : p.Proper) :
    Search.Reliable p (Policy.leastCost p) (Estimates.Valid p) p.HasEstimate := by
  refine ⟨?_, ?_, ?_, ?_⟩
  · intro known frontier index hknown hnonempty hproper hindex
    obtain ⟨least, heq | ⟨i, node, rfl, hnode, -⟩, -⟩ :=
      leastCost_spec hknown hproper (fun _ => hnonempty) hindex
    · cases heq
    · rw [Nat.zero_add]
      exact (List.getElem?_eq_some_iff.mp hnode).1
  · intro known frontier e hknown hfit herror
    obtain ⟨n, hn, hfailed | hnone⟩ :=
      exists_of_leastCost_eq_error hknown (fun n hn => (hfit n hn).1) herror
    · exact ⟨n, hn, hp.failsFrom_of_estimate (hfit n hn).1 hfailed⟩
    · exact absurd hnone (hfit n hn).2
  · -- whether a new node is discarded fails where its estimate does
    intro known node _ e hknown hnode herror
    replace herror : (Estimates.get p known node.state).1.map (·.isNone) = .error e := herror
    rw [hknown.get_eq hnode] at herror
    cases hestimate : p.estimate node.state with
    | error error =>
        rw [hestimate] at herror
        obtain rfl := Except.error.inj herror
        exact hp.failsFrom_of_estimate hnode hestimate
    | ok estimate =>
        rw [hestimate] at herror
        cases herror
  · intro known node _ hknown hnode hkept hnone
    replace hkept : (Estimates.get p known node.state).1.map (·.isNone) = .ok false := hkept
    rw [hknown.get_eq hnode, hnone] at hkept
    cases hkept

theorem Problem.reliable_at (p : Problem) {place : List Node → Nat}
    (hplace : ∀ frontier ≠ [], place frontier < frontier.length) :
    Search.Reliable p (Policy.at place) (fun _ => True) fun _ => True := by
  refine ⟨?_, nofun, nofun, fun _ _ _ => trivial⟩
  intro _ frontier index _ hnonempty _ hindex
  obtain rfl := Except.ok.inj hindex
  exact hplace frontier hnonempty

theorem Problem.reliable_oldest (p : Problem) :
    Search.Reliable p Policy.oldest (fun _ => True) fun _ => True :=
  p.reliable_at fun _ hnonempty => List.length_pos_of_ne_nil hnonempty

theorem Problem.reliable_newest (p : Problem) :
    Search.Reliable p Policy.newest (fun _ => True) fun _ => True :=
  p.reliable_at fun _ hnonempty => Nat.sub_one_lt_of_lt (List.length_pos_of_ne_nil hnonempty)

/-! ## Every node has an estimate -/

namespace Problem

/-- What is asked before a search for a conjunction: whether the goal holds at once, and else its
level. -/
theorem Proper.unreachable?_eq (hp : p.Proper) {goals : List Atom}
    (hgoals : p.goal = .conjunction goals) {reached : Bool}
    (hreached : p.reaches p.initialState = .ok reached) :
    p.unreachable? (.start p.initialState) = if reached then .ok none else
      match RelaxedGraph.goalLevel p goals (.start p.initialState) with
      | (.error error, _) => .error error
      | (.ok (some _), _) => .ok none
      | (.ok none, g) => .ok (some g.size) := by
  have hfirst : (!(Search.start p.initialState).step.isZero) = false := rfl
  have hinitial : (Search.start p.initialState).initialState = p.initialState := rfl
  rw [unreachable?, goals?, hgoals]
  dsimp only
  rw [hfirst, if_neg Bool.false_ne_true, hinitial, hreached, RelaxedGraph.start?_eq_ok hp]
  cases reached <;> rfl

theorem Proper.failsFrom_of_unreachable? (hp : p.Proper) {e : Error}
    (h : p.unreachable? (.start p.initialState) = .error e) : p.FailsFrom p.initialState e := by
  cases hgoal : p.goal with
  | test passes =>
      rw [unreachable?, goals?, hgoal] at h
      cases h
  | conjunction goals =>
      obtain ⟨reached, hreached⟩ := hp.exists_reaches hgoal hp.initialState
      rw [hp.unreachable?_eq hgoal hreached] at h
      split_ifs at h
      split at h
      · rename_i hlevel
        obtain rfl := Except.error.inj h
        refine hp.failsFrom_of_estimate hp.initialState ?_
        rw [hp.estimate_eq hgoal, hlevel]
      · cases h
      · cases h

theorem Proper.groundingFailure_of_unreachable? (hp : p.Proper) {e : Error}
    (h : p.unreachable? (.start p.initialState) = .error e) : p.GroundingFailure e :=
  (hp.failsFrom_of_unreachable? h).groundingFailure hp hp.initialState

/-- Where the relaxed graph does not rule the goal out, the initial state has an estimate. -/
theorem Proper.hasEstimate_of_unreachable? (hp : p.Proper)
    (h : p.unreachable? (.start p.initialState) = .ok none) : p.HasEstimate p.initialState := by
  intro hnone
  cases hgoal : p.goal with
  | test passes =>
      rw [estimate, hgoal] at hnone
      cases hnone
  | conjunction goals =>
      obtain ⟨reached, hreached⟩ := hp.exists_reaches hgoal hp.initialState
      rw [hp.unreachable?_eq hgoal hreached] at h
      split_ifs at h with hreaches
      · rw [hreaches] at hreached
        exact (hp.hopeless_of_estimate_eq_none hp.initialState hnone).reaches_ne hreached
      · rw [hp.estimate_eq hgoal] at hnone
        split at h
        · cases h
        · rename_i hlevel
          rw [hlevel] at hnone
          cases hnone
        · cases h

end Problem

namespace Search

/-- No depth is added to an estimate that is not there: every node has an estimate, unless computing
it fails, and choosing fails in no other way. -/
structure AddsEstimates (p : Problem) (known : Estimates) (frontier : List Node) : Prop where
  hasEstimate : ∀ n ∈ frontier, p.HasEstimate n.state
  fails : ∀ e, ((Policy.leastCost p).choose known frontier).answer = .error e →
    ∃ n ∈ frontier, p.estimate n.state = .error e

/-- **At every point of a run of A\* there is an estimate for every node.** -/
theorem addsEstimates_of_continues (hp : p.Proper)
    (hunreachable : p.unreachable? (.start p.initialState) = .ok none) {last : Search}
    (hsteps : Relation.ReflTransGen (Continues p (Policy.leastCost p) b) (.start p.initialState, ∅)
      (last, known)) : AddsEstimates p known last.frontier := by
  have hstart : Poised p (Estimates.Valid p) p.HasEstimate b (.start p.initialState) ∅ :=
    poised_start hp Estimates.valid_empty (hp.hasEstimate_of_unreachable? hunreachable)
  have hpoised := invariant_of_continues (Poised p (Estimates.Valid p) p.HasEstimate b)
    (fun h hstep => h.continues hp hp.admissible_leastCost hp.reliable_leastCost hstep)
    hsteps hstart
  refine ⟨hpoised.fit, ?_⟩
  intro e hfailed
  obtain ⟨n, hn, herror | hnone⟩ :=
    exists_of_leastCost_eq_error hpoised.valid (fun n hn => hpoised.proper hp hn) hfailed
  · exact ⟨n, hn, herror⟩
  · exact absurd hnone (hpoised.fit n hn)

end Search

end HornPlan
