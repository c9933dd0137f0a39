import HornPlan.Proofs.Plans
import Mathlib.Algebra.Order.BigOperators.Group.List
import Mathlib.Algebra.Order.Ring.Nat

/-!
# Plannings that continue a search

A planning leaves a search behind, and another planning may continue it under another bound.  The
nodes that wait were put on the frontier under the bounds of the plannings before, and those that
were left at a smaller bound are not expanded any more.

So an answer holds as far as all of the bounds do (`Proper.meaning_of_leftBehind`).  A plan is no
longer than the largest of them; where there is none because no node is left, no path reaches the
goal that is as short as the smallest.  The last bound alone is not kept (`not_forall_length_le`).
-/

namespace HornPlan

namespace Search

variable {p : Problem} {M : Type} {policy : Policy M} {Valid : M → Prop}
  {bounds : List Nat} {b : Nat} {search : Search} {memory : M} {bound maxNodes : Count}

/-! ## What plannings with some bounds leave behind -/

/-- What holds of a search that plannings with these bounds have left behind: its nodes are sound
for every bound that is not smaller than any of them, and all states are accounted for under every
bound that is not larger.  It runs, or it has halted for a known cause. -/
structure Resumable (p : Problem) (bounds : List Nat) (search : Search) : Prop where
  sound : ∀ c, (∀ b ∈ bounds, b ≤ c) → Sound p c search
  covered : search.solution = none → ∀ c, (∀ b ∈ bounds, c ≤ b) → Covered p c search
  solution : ∀ node, search.solution = some node → p.Leads p.initialState node.actions node.state ∧
    p.reaches node.state = .ok true ∧ ∀ c, (∀ b ∈ bounds, b ≤ c) → node.depth ≤ c
  status : search.Running ∨ search.halted = true ∧ ∃ cause, search.haltReason = .cause cause ∧
    (cause = .frontierEmpty → search.frontier = [])

theorem resumable_start (hp : p.Proper) : Resumable p bounds (start p.initialState) :=
  ⟨fun _ _ => sound_start, fun _ _ _ => covered_start hp, nofun, Or.inl (running_start _)⟩

/-- One more bound permits no less. -/
theorem Resumable.cons (h : Resumable p bounds search) (b : Nat) :
    Resumable p (b :: bounds) search :=
  ⟨fun c hc => h.sound c (List.forall_mem_cons.mp hc).2,
    fun hnone c hc => h.covered hnone c (List.forall_mem_cons.mp hc).2,
    fun node hnode => by
      obtain ⟨hleads, hreaches, hdepth⟩ := h.solution node hnode
      exact ⟨hleads, hreaches, fun c hc => hdepth c (List.forall_mem_cons.mp hc).2⟩,
    h.status⟩

theorem Resumable.exists_sound (h : Resumable p bounds search) : ∃ c, Sound p c search :=
  ⟨bounds.sum, h.sound bounds.sum fun _ hb => List.le_sum_of_mem hb⟩

theorem Resumable.halt (h : Resumable p bounds search) {cause : HaltCause}
    (hempty : cause = .frontierEmpty → search.frontier = []) :
    Resumable p bounds (search.halt cause) :=
  ⟨fun c hc => ⟨(h.sound c hc).initialState, (h.sound c hc).leads, (h.sound c hc).depth_le⟩,
    fun hnone c hc =>
      ⟨(h.covered hnone c hc).tidy, (h.covered hnone c hc).start, (h.covered hnone c hc).covers⟩,
    h.solution, Or.inr ⟨rfl, cause, rfl, hempty⟩⟩

theorem Resumable.continues (h : Resumable p bounds search) (hb : b ∈ bounds) (hp : p.Proper)
    (hpolicy : Admissible p policy Valid) (hmemory : Valid memory) (hrunning : search.Running)
    {next : Search} {memory' : M} (hstep : Continues p policy b (search, memory) (next, memory')) :
    Resumable p bounds next := by
  have hnext := hrunning.continues hstep
  obtain ⟨_, hsound⟩ := h.exists_sound
  refine ⟨fun c hc => (h.sound c hc).continues_of_le (hc b hb) hstep, fun _ c hc => ?_,
    fun node hnode => (nomatch hnext.solution.symm.trans hnode), Or.inl hnext⟩
  exact (h.covered hrunning.solution c hc).continues_of_le (hc b hb) hp hsound hpolicy hmemory hstep

/-- A goal node takes its place on no frontier any more, but its path has been kept. -/
theorem Resumable.ends (h : Resumable p bounds search) {final : Search}
    (hends : Ends p policy search memory final) : Resumable p bounds final := by
  cases hends with
  | limit => exact h
  | stopped cause hcause => rcases hcause with rfl | rfl <;> exact h.halt nofun
  | exhausted hempty => exact h.halt fun _ => hempty
  | found hfinds =>
      obtain @⟨_, node, rest, step, history, htakes, hreaches⟩ := hfinds
      refine ⟨fun c hc => ?_, nofun, fun goal hgoal => ?_, Or.inr ⟨rfl, .goalReached, rfl, nofun⟩⟩
      · have hsound := h.sound c hc
        exact ⟨hsound.initialState, fun n hn => hsound.leads n (htakes.subset hn),
          fun n hn => hsound.depth_le n (htakes.subset hn)⟩
      · obtain rfl := Option.some.inj hgoal
        obtain ⟨_, hsound⟩ := h.exists_sound
        exact ⟨hsound.leads _ htakes.mem, hreaches,
          fun c hc => (h.sound c hc).depth_le _ htakes.mem⟩

/-- **A run under one of the bounds keeps what is known of a search**, and one that has halted does
not change. -/
theorem Resumable.run (h : Resumable p bounds search) (hb : b ∈ bounds) (hp : p.Proper)
    (hpolicy : Admissible p policy Valid) (hmemory : Valid memory) {verbose : Bool}
    {limits : Limits} {run : RunOutcome M}
    (hrun : search.run p policy (some (.whole b)) verbose limits memory = run)
    (herror : run.error = none) : Resumable p bounds run.search := by
  rcases h.status with hrunning | ⟨hhalted, -⟩
  · obtain ⟨last, memory', hsteps, hends⟩ := runFor_spec hrunning hrun herror
    obtain ⟨hlast, -⟩ := invariant_of_continues
      (fun search memory => Resumable p bounds search ∧ search.Running ∧ Valid memory)
      (fun h hstep => ⟨h.1.continues hb hp hpolicy h.2.2 h.2.1 hstep, h.2.1.continues hstep,
        hstep.valid hpolicy h.2.2⟩)
      hsteps ⟨h, hrunning, hmemory⟩
    exact hlast.ends hends
  · rw [runFor_of_halted hrun herror hhalted]
    exact h

/-! ## Reading a result -/

/-- Only a search without nodes says that there is no plan within the bound. -/
theorem Resumable.failure_spec (h : Resumable p bounds search) (bound maxNodes : Count) :
    (search.failure bound maxNodes).OfSearch bound maxNodes ∧
      (search.failure bound maxNodes = .withinBound bound → search.frontier = []) := by
  rcases h.status with hrunning | ⟨hhalted, cause, hcause, hempty⟩
  · have hlimit : search.failure bound maxNodes = .nodeLimit maxNodes := by
      rw [failure, hrunning.haltReason, HaltReason.unknown, hrunning.halted]
      rfl
    rw [hlimit]
    exact ⟨.nodeLimit, fun h => by cases h⟩
  · rw [failure, hcause, hhalted]
    cases cause with
    | frontierEmpty => exact ⟨.withinBound, fun _ => hempty rfl⟩
    | goalReached => exact ⟨.halted _, fun h => by cases h⟩
    | goalUnreachable => exact ⟨.halted _, fun h => by cases h⟩
    | stopConditionMet => exact ⟨.halted _, fun h => by cases h⟩
    | timeLimitExceeded => exact ⟨.halted _, fun h => by cases h⟩

theorem Resumable.solves_of_result (h : Resumable p bounds search) (hp : p.Proper) {plan : Plan}
    (hresult : search.result bound maxNodes = .ok (.found plan)) {c : Nat}
    (hc : ∀ b ∈ bounds, b ≤ c) :
    p.Solves c plan := by
  obtain ⟨node, hsolution, hplan⟩ := exists_of_result_eq_found hresult
  obtain ⟨hleads, hreaches, hdepth⟩ := h.solution node hsolution
  rw [(h.sound c hc).initialState] at hplan
  obtain ⟨ss, hss, hplan⟩ := bind_eq_ok.mp hplan
  obtain rfl := Except.ok.inj hplan
  exact hp.solves_of_leads hleads (hdepth c hc) hreaches hss rfl rfl

theorem Resumable.reaches_ne_of_result (h : Resumable p bounds search) {reason : NoPlanReason}
    {nodesExpanded : Count} {within : Option Count}
    (hresult : search.result bound maxNodes = .ok (.notFound reason nodesExpanded within))
    (htext : reason.text = (NoPlanReason.withinBound bound).text) {as : List Action} {t : State}
    (hleads : p.Leads p.initialState as t) (hlength : ∀ b ∈ bounds, as.length ≤ b) :
    p.reaches t ≠ .ok true := by
  obtain ⟨hnone, rfl⟩ := eq_of_result_eq_notFound hresult
  obtain ⟨hreason, hempty⟩ := h.failure_spec bound maxNodes
  have hcovered := h.covered hnone as.length hlength
  intro hgoal
  obtain ⟨n, hn, -⟩ := hcovered.exists_waiting hleads hcovered.start (by omega) hgoal
  rw [hempty (hreason.eq_withinBound htext)] at hn
  exact absurd hn List.not_mem_nil

end Search

namespace Problem

variable {p : Problem} {request : Request} {strategy : Strategy} {bounds : List Nat} {b : Nat}
  {search : Search}

/-! ## Answers -/

/-- The search that plannings with these bounds leave behind, the last one first.  Each of them has
answered and continued the search of the one before. -/
inductive LeftBehind (p : Problem) : List Nat → Search → Prop
  | start : LeftBehind p [] (.start p.initialState)
  | next {bounds : List Nat} {search : Search} {request : Request} {strategy : Strategy} {b : Nat}
      {answer : PlanResult} (h : LeftBehind p bounds search) (hbound : request.bound = .whole b)
      (hoffered : Offered p strategy)
      (hanswer : (p.planWith request strategy search).answer = .ok answer) :
      LeftBehind p (b :: bounds) (p.planWith request strategy search).search

theorem Proper.resumable_planWith (hp : p.Proper) (h : Search.Resumable p bounds search)
    (hbound : request.bound = .whole b) (hoffered : Offered p strategy) {answer : PlanResult}
    (hanswer : (p.planWith request strategy search).answer = .ok answer) :
    Search.Resumable p (b :: bounds) (p.planWith request strategy search).search := by
  obtain ⟨Valid, hmemory, hpolicy⟩ := hoffered.admissible hp
  rcases planWith_cases hanswer with ⟨-, -, hsearch⟩ | ⟨run, hrun, herror, hsearch, -⟩
  · rw [hsearch]
    exact (h.cons b).halt nofun
  · rw [hbound] at hrun
    rw [hsearch]
    exact (h.cons b).run List.mem_cons_self hp hpolicy hmemory hrun herror

theorem LeftBehind.resumable (h : p.LeftBehind bounds search) (hp : p.Proper) :
    Search.Resumable p bounds search := by
  induction h with
  | start => exact Search.resumable_start hp
  | next _ hbound hoffered hanswer ih => exact hp.resumable_planWith ih hbound hoffered hanswer

/-- **What an answer means that continues earlier plannings**: a plan is no longer than the largest
of all bounds, and where there is none within the bound, no path that is as short as the smallest
reaches the goal. -/
theorem Proper.meaning_of_leftBehind (hp : p.Proper) (hleft : p.LeftBehind bounds search)
    (hbound : request.bound = .whole b) (hoffered : Offered p strategy) {answer : PlanResult}
    (h : (p.planWith request strategy search).answer = .ok answer) :
    (∀ plan, answer = .found plan → ∀ c, (∀ d ∈ b :: bounds, d ≤ c) → p.Solves c plan) ∧
    (∀ reason nodesExpanded within, answer = .notFound reason nodesExpanded within →
      reason.text = "no plan found within bound " ++ request.bound.text →
      ∀ as t, p.Leads p.initialState as t → (∀ d ∈ b :: bounds, as.length ≤ d) →
        p.reaches t ≠ .ok true) := by
  have hresumable := hp.resumable_planWith (hleft.resumable hp) hbound hoffered h
  rcases planWith_cases h with ⟨rfl, -, -⟩ | ⟨run, -, -, hsearch, hresult⟩
  · refine ⟨nofun, ?_⟩
    intro reason nodesExpanded within hanswer htext
    -- the message of this answer is another one
    obtain ⟨rfl, -, -⟩ := PlanResult.notFound.inj hanswer
    have hreason : NoPlanReason.OfSearch request.bound request.maxNodes
        (.halted (.cause .goalUnreachable)) := .halted _
    cases hreason.eq_withinBound htext
  · rw [hsearch] at hresumable
    constructor
    · rintro plan rfl c hc
      exact hresumable.solves_of_result hp hresult hc
    · rintro reason nodesExpanded within rfl htext as t hleads hlength
      exact hresumable.reaches_ne_of_result hresult htext hleads hlength

theorem LeftBehind.of_plan (hbound : request.bound = .whole b) (hoffered : Offered p strategy)
    {answer : PlanResult} (h : (p.plan request strategy).answer = .ok answer) :
    p.LeftBehind [b] (p.plan request strategy).search :=
  .next .start hbound hoffered h

/-- The first planning permits three actions and stops after two nodes, and the second one permits
one action. -/
theorem exists_longer_plan : ∃ p search plan, Worlds.haveCake = .ok p ∧ p.Proper ∧
    p.LeftBehind [3] search ∧
    (p.planWith ⟨1, 100, .ok false, false⟩ (StrategyName.breadthFirst.strategy p []) search).answer
      = .ok (.found plan) ∧ plan.actions.length = 2 := by
  obtain ⟨p, hcake, hproper⟩ := exists_haveCake
  have hfirst : (Worlds.haveCake.toOption.bind fun p => (p.plan ⟨3, 2, .ok false, false⟩
      (StrategyName.breadthFirst.strategy p [])).answer.toOption).isSome := by
    decide +kernel
  have hsecond : (Worlds.haveCake.toOption.bind fun p => (p.planWith ⟨1, 100, .ok false, false⟩
      (StrategyName.breadthFirst.strategy p []) (p.plan ⟨3, 2, .ok false, false⟩
        (StrategyName.breadthFirst.strategy p [])).search).answer.toOption.bind
        PlanResult.plan?).map (·.actions.length) = some 2 := by
    decide +kernel
  rw [hcake] at hfirst hsecond
  obtain ⟨answer, hanswer⟩ := Option.isSome_iff_exists.mp hfirst
  obtain ⟨plan, hplan, hlength⟩ := Option.map_eq_some_iff.mp hsecond
  have hleft := LeftBehind.of_plan rfl (.named .breadthFirst []) (eq_ok_of_toOption hanswer)
  exact ⟨p, _, plan, hcake, hproper, hleft, PlanResult.eq_found_of_plan?_eq hplan, hlength⟩

/-- The first planning permits one action and leaves no node, and the second one permits three
actions. -/
theorem exists_shorter_search :
    ∃ p search reason nodesExpanded within, Worlds.haveCake = .ok p ∧ p.Proper ∧
    p.LeftBehind [1] search ∧
    (p.planWith ⟨3, 100, .ok false, false⟩ (StrategyName.breadthFirst.strategy p []) search).answer
      = .ok (.notFound reason nodesExpanded within) ∧
      reason.text = "no plan found within bound 3" := by
  obtain ⟨p, hcake, hproper⟩ := exists_haveCake
  have hfirst : (Worlds.haveCake.toOption.bind fun p => (p.plan ⟨1, 100, .ok false, false⟩
      (StrategyName.breadthFirst.strategy p [])).answer.toOption).isSome := by
    decide +kernel
  have hsecond : (Worlds.haveCake.toOption.bind fun p => (p.planWith ⟨3, 100, .ok false, false⟩
      (StrategyName.breadthFirst.strategy p []) (p.plan ⟨1, 100, .ok false, false⟩
        (StrategyName.breadthFirst.strategy p [])).search).answer.toOption.bind
        PlanResult.reason?).map NoPlanReason.text = some "no plan found within bound 3" := by
    decide +kernel
  rw [hcake] at hfirst hsecond
  obtain ⟨answer, hanswer⟩ := Option.isSome_iff_exists.mp hfirst
  obtain ⟨reason, nodesExpanded, within, hreason, htext⟩ := PlanResult.exists_of_reason?_eq hsecond
  have hleft := LeftBehind.of_plan rfl (.named .breadthFirst []) (eq_ok_of_toOption hanswer)
  exact ⟨p, _, reason, nodesExpanded, within, hcake, hproper, hleft, hreason, htext⟩

/-- The cake is eaten and baked again within three actions, though one was permitted last; and where
one was permitted first, one does not give a cake that has been eaten, though three were permitted
last. -/
theorem meaning_of_leftBehind_haveCake : ∃ p search search' plan reason nodesExpanded within,
    Worlds.haveCake = .ok p ∧ p.Proper ∧ p.LeftBehind [3] search ∧ p.LeftBehind [1] search' ∧
    Offered p (StrategyName.breadthFirst.strategy p []) ∧
    (p.planWith ⟨1, 100, .ok false, false⟩ (StrategyName.breadthFirst.strategy p []) search).answer
      = .ok (.found plan) ∧
    p.Solves 3 plan ∧
    (p.planWith ⟨3, 100, .ok false, false⟩ (StrategyName.breadthFirst.strategy p []) search').answer
      = .ok (.notFound reason nodesExpanded within) ∧
    reason.text = "no plan found within bound 3" ∧
    ∀ as t, p.Leads p.initialState as t → as.length ≤ 1 → p.reaches t ≠ .ok true := by
  obtain ⟨p, search, plan, hcake, hproper, hleft, hplan, -⟩ := exists_longer_plan
  obtain ⟨p', search', reason, nodesExpanded, within, hcake', -, hleft', hreason, htext⟩ :=
    exists_shorter_search
  obtain rfl := Except.ok.inj (hcake.symm.trans hcake')
  have hoffered : Offered p (StrategyName.breadthFirst.strategy p []) := .named .breadthFirst []
  have hfound := (hproper.meaning_of_leftBehind hleft rfl hoffered hplan).1 plan rfl 3 (by decide)
  have hunreached := (hproper.meaning_of_leftBehind hleft' rfl hoffered hreason).2 _ _ _ rfl
    (htext.trans (by decide))
  refine ⟨p, search, search', plan, reason, nodesExpanded, within, hcake, hproper, hleft,
    hleft', hoffered, hplan, hfound, hreason, htext,
    fun as t hleads hlength => hunreached as t hleads ?_⟩
  intro d hd
  simp only [List.mem_cons, List.not_mem_nil, or_false] at hd
  omega

/-- An answer does not mean of the last bound what it means of all of them: the plan may be
longer. -/
theorem not_forall_length_le : ¬∀ (p : Problem) (bounds : List Nat) (search : Search)
    (request : Request) (strategy : Strategy) (b : Nat) (answer : PlanResult), p.Proper →
    p.LeftBehind bounds search →
    request.bound = .whole b → Offered p strategy →
    (p.planWith request strategy search).answer = .ok answer →
    (∀ plan, answer = .found plan → plan.actions.length ≤ b) ∧
    (∀ reason nodesExpanded within, answer = .notFound reason nodesExpanded within →
      reason.text = "no plan found within bound " ++ request.bound.text →
      ∀ as t, p.Leads p.initialState as t → as.length ≤ b → p.reaches t ≠ .ok true) := by
  intro h
  obtain ⟨p, search, plan, -, hproper, hleft, hplan, hlength⟩ := exists_longer_plan
  have hshort :=
    (h p [3] search _ _ 1 _ hproper hleft rfl (.named .breadthFirst []) hplan).1 plan rfl
  omega

end Problem

end HornPlan
