import HornPlan.Proofs.OldestFirst
import HornPlan.Proofs.Plans

/-!
# A\* and breadth first find plans of equal length

Where no grounding fails and no limit cuts a search short (`Undisturbed`), A\* finds a plan exactly
when breadth first does, the two plans are equally long, and no path to the goal is shorter
(`Proper.agree_of_undisturbed`).

For a conjunction neither search can fail, so each of them finds a plan or has shown that there is
none within the bound (`Proper.settles`).  A node with a plan of least length is taken first because
some node waits on every shorter path, at a cost that is no larger than the length of the path
(`Proper.isLeast_of_takesCheapest`).  For a goal that is a test, which may fail, both searches take
the same nodes.
-/

namespace HornPlan

/-! ## Results of searches that were not cut short -/

namespace Search

variable {bound maxNodes : Count}

theorem Running.result_eq {search : Search} (h : search.Running) :
    search.result bound maxNodes =
      .ok (.notFound (.nodeLimit maxNodes) search.step (some bound)) := by
  have hfailure : search.failure bound maxNodes = .nodeLimit maxNodes := by
    rw [failure, h.haltReason, HaltReason.unknown, h.halted]
    rfl
  rw [result, extract, h.solution, ok_bind, hfailure]
  rfl

theorem Running.result_halt {search : Search} (h : search.Running) {cause : HaltCause} :
    (search.halt cause).result bound maxNodes
      = .ok (.notFound ((search.halt cause).failure bound maxNodes) search.step (some bound)) := by
  have hsolution : (search.halt cause).solution = none := h.solution
  rw [result, extract, hsolution]
  rfl

theorem result_of_solution {search : Search} {node : Node} {plan : Plan}
    (hsolution : search.solution = some node)
    (hplan : planFrom search.initialState node.actions search.step = .ok plan) :
    search.result bound maxNodes = .ok (.found plan) := by
  rw [result, extract, hsolution]
  dsimp only
  rw [hplan]
  rfl

theorem result_eq_found {search : Search} {plan : Plan} {bound' maxNodes' : Count}
    (h : search.result bound maxNodes = .ok (.found plan)) :
    search.result bound' maxNodes' = .ok (.found plan) := by
  obtain ⟨extracted, hextracted, h⟩ := bind_eq_ok.mp h
  rw [result, hextracted, ok_bind]
  cases extracted with
  | none => cases Except.ok.inj h
  | some _ => exact h

end Search

namespace Problem

variable {p : Problem} {strategy : Strategy} {b : Nat}

/-! ## Plannings that nothing disturbs -/

/-- No grounding has failed, and no limit has cut the search short.  An error of a grounding ends a
search, which answers with it.  With a test for its goal a search may fail in any way. -/
structure Undisturbed (p : Problem) (answer : Except Error PlanResult) : Prop where
  grounding : ∀ goals, p.goal = .conjunction goals → ∀ e, answer = .error e → ¬p.GroundingFailure e
  nodes : ∀ limit nodesExpanded within,
    answer ≠ .ok (.notFound (.nodeLimit limit) nodesExpanded within)
  time : ∀ nodesExpanded within,
    answer ≠ .ok (.notFound (.halted (.cause .timeLimitExceeded)) nodesExpanded within)

theorem undisturbed_of_found (p : Problem) {answer : Except Error PlanResult} {plan : Plan}
    (h : answer = .ok (.found plan)) : p.Undisturbed answer := by
  subst h
  exact ⟨nofun, nofun, nofun⟩

/-- The answer that is read off the conclusion of a run. -/
def answerOf (final : Search) (bound maxNodes : Count) : Option Error → Except Error PlanResult
  | some e => .error e
  | none => final.result bound maxNodes

theorem requireBound_eq_ok : (Count.whole b).requireBound = .ok () := by
  have hbelow : (Count.whole b).below 0 = .ok false :=
    (Count.below_whole b 0).trans (congrArg _ (decide_eq_false (by omega)))
  rw [Count.requireBound, hbelow]
  rfl

theorem requireBound_of_negative {bound : Int} (h : bound < 0) :
    (Count.whole bound).requireBound = .error (.negativeBound (.int bound)) := by
  have hbelow : (Count.whole bound).below 0 = .ok true :=
    (Count.below_whole bound 0).trans (congrArg _ (decide_eq_true h))
  rw [Count.requireBound, hbelow]
  rfl

theorem exists_run_of_planTimed {maxNodes : Count} {late : Nat → Except Error Bool} {verbose : Bool}
    {search : Search} {planning : Planning} (hunreachable : p.unreachable? search = .ok none)
    (h : p.planTimed ⟨.whole b, maxNodes, late, verbose⟩ strategy search = planning) :
    ∃ run, search.runTimed p strategy.policy (some (.whole b)) verbose
        ⟨maxNodes, late, fun _ => .ok false⟩ strategy.memory = run ∧
      planning.answer = answerOf run.search (.whole b) maxNodes run.error ∧
      planning.search = run.search ∧ planning.checkpoint = run.checkpoint := by
  subst h
  refine ⟨_, rfl, ?_⟩
  rw [planTimed, requireBound_eq_ok, ok_bind, hunreachable]
  dsimp only [TimedRequest.limits]
  split
  · rename_i herror
    exact ⟨by rw [herror]; rfl, rfl, rfl⟩
  · rename_i hnone
    exact ⟨by rw [hnone]; rfl, rfl, rfl⟩

section

variable {maxNodes : Int} {outOfTime verbose : Bool}

/-- A negative bound is refused, whatever search is continued. -/
theorem planWith_of_negative {bound : Int} (h : bound < 0) (search : Search) :
    (p.planWith ⟨.whole bound, .whole maxNodes, .ok outOfTime, verbose⟩ strategy search).answer
      = .error (.negativeBound (.int bound)) := by
  rw [planWith, planTimed, Request.timed, requireBound_of_negative h]
  rfl

theorem answer_of_negative {bound : Int} (h : bound < 0) :
    (p.plan ⟨.whole bound, .whole maxNodes, .ok outOfTime, verbose⟩ strategy).answer
      = .error (.negativeBound (.int bound)) :=
  planWith_of_negative h _

theorem answer_of_unreachable?_eq_error {e : Error}
    (h : p.unreachable? (.start p.initialState) = .error e) :
    (p.plan ⟨.whole b, .whole maxNodes, .ok outOfTime, verbose⟩ strategy).answer = .error e := by
  rw [plan, planWith, planTimed, Request.timed, requireBound_eq_ok, ok_bind, h]

theorem answer_of_unreachable?_eq_some {layers : Nat}
    (h : p.unreachable? (.start p.initialState) = .ok (some layers)) :
    (p.plan ⟨.whole b, .whole maxNodes, .ok outOfTime, verbose⟩ strategy).answer
      = .ok (.notFound (.halted (.cause .goalUnreachable)) 0 (some (.whole b))) := by
  rw [plan, planWith, planTimed, Request.timed, requireBound_eq_ok, ok_bind, h]

/-- **An answer is read off the conclusion of a run**, unless a limit has cut the run short. -/
theorem concludes_or_cut {search : Search} (hstatus : search.halted = true ∨ search.Running)
    (hregular : search.Regular) (hunreachable : p.unreachable? search = .ok none)
    {answer : Except Error PlanResult}
    (hanswer : (p.planWith ⟨.whole b, .whole maxNodes, .ok outOfTime, verbose⟩ strategy
      search).answer = answer) :
    (∃ final error,
      Search.Concludes p strategy.policy (some (.whole b)) verbose search strategy.memory
      final error ∧
      answer = answerOf final (.whole b) (.whole maxNodes) error) ∨
    (∃ nodesExpanded,
      answer = .ok (.notFound (.nodeLimit (.whole maxNodes)) nodesExpanded (some (.whole b)))) ∨
    ∃ nodesExpanded,
      answer =
      .ok (.notFound (.halted (.cause .timeLimitExceeded)) nodesExpanded (some (.whole b))) := by
  generalize hplanning : p.planWith _ strategy search = planning at hanswer
  subst hanswer
  obtain ⟨run, hrun, hanswer, -⟩ := exists_run_of_planTimed hunreachable hplanning
  rcases Search.runFor_cases hstatus hregular hrun with ⟨hnone, hcut⟩ | hconcludes
  · rw [hnone] at hanswer
    generalize run.search = final at hcut hanswer
    cases hcut with
    | nodes hrunning => exact Or.inr (Or.inl ⟨_, hanswer.trans hrunning.result_eq⟩)
    | time hrunning => exact Or.inr (Or.inr ⟨_, hanswer.trans hrunning.result_halt⟩)
  · exact Or.inl ⟨run.search, run.error, hconcludes, hanswer⟩

theorem Undisturbed.exists_concludes
    (hunreachable : p.unreachable? (.start p.initialState) = .ok none)
    (h : p.Undisturbed
      (p.plan ⟨.whole b, .whole maxNodes, .ok outOfTime, verbose⟩ strategy).answer) :
    ∃ final error,
    Search.Concludes p strategy.policy (some (.whole b)) verbose (.start p.initialState)
        strategy.memory final error ∧
      (p.plan ⟨.whole b, .whole maxNodes, .ok outOfTime, verbose⟩ strategy).answer
        = answerOf final (.whole b) (.whole maxNodes) error := by
  rcases concludes_or_cut (Or.inr (Search.running_start _)) (Search.regular_start _)
      hunreachable rfl with
    hconcludes | ⟨_, hcut⟩ | ⟨_, hcut⟩
  · exact hconcludes
  · exact absurd hcut (h.nodes _ _ _)
  · exact absurd hcut (h.time _ _)

end

/-! ## Searches for a conjunction -/

theorem Proper.exists_statesAfter (hp : p.Proper) {s t : State} (hs : s.Proper) {as : List Action}
    (h : p.Leads s as t) : ∃ ss, statesAfter s as = .ok ss := by
  induction h with
  | nil s => exact ⟨[], rfl⟩
  | @cons s u t a as l hl hmem _ ih =>
      obtain ⟨ss, hss⟩ := ih (hp.successor hs hl hmem)
      refine ⟨u :: ss, ?_⟩
      rw [statesAfter, (hp.executes hs hl hmem).applied, ok_bind, hss]
      rfl

theorem Proper.exists_plan_of_finds (hp : p.Proper) {c : Nat} {last final : Search}
    {memory : strategy.Memory} (hsound : Search.Sound p c last)
    (hfinds : Search.Finds p strategy.policy last memory final) (bound maxNodes : Count) :
    ∃ plan, final.result bound maxNodes = .ok (.found plan) := by
  obtain @⟨_, node, rest, step, history, htakes, -⟩ := hfinds
  obtain ⟨ss, hss⟩ := hp.exists_statesAfter hp.initialState (hsound.leads node htakes.mem)
  refine ⟨⟨node.actions, p.initialState :: ss, step⟩, Search.result_of_solution rfl ?_⟩
  change planFrom last.initialState node.actions step = _
  rw [hsound.initialState, planFrom, hss]
  rfl

theorem Proper.exists_result_of_concludes (hp : p.Proper) {c : Nat} {search final : Search}
    {verbose : Bool} {memory : strategy.Memory} (hsound : Search.Sound p c search)
    (hrunning : search.Running) (hle : b ≤ c)
    (h : Search.Concludes p strategy.policy (some (.whole b)) verbose search memory final none)
    (bound maxNodes : Count) : ∃ result, final.result bound maxNodes = .ok result := by
  obtain ⟨last, memory', hsteps, hends⟩ := h.ends rfl hrunning
  obtain ⟨hlast, hrunning⟩ :=
    Search.invariant_of_continues (fun search _ => Search.Sound p c search ∧ search.Running)
    (fun h hstep => ⟨h.1.continues_of_le hle hstep, h.2.continues hstep⟩) hsteps ⟨hsound, hrunning⟩
  rcases hends with ⟨-, rfl⟩ | hfinds
  · exact ⟨_, hrunning.result_halt⟩
  · obtain ⟨plan, hplan⟩ := hp.exists_plan_of_finds hlast hfinds bound maxNodes
    exact ⟨_, hplan⟩

/-- A plan is found, or the answer is another one and no path within the bound reaches the goal. -/
def Settles (p : Problem) (b : Nat) (answer : Except Error PlanResult) : Prop :=
  (∃ plan, answer = .ok (.found plan)) ∨ (∃ result, answer = .ok result) ∧
    ∀ as t, p.Leads p.initialState as t → as.length ≤ b → p.reaches t ≠ .ok true

theorem Settles.exists_ok {answer : Except Error PlanResult} (h : p.Settles b answer) :
    ∃ result, answer = .ok result := by
  rcases h with ⟨plan, hfound⟩ | ⟨hanswers, -⟩
  · exact ⟨_, hfound⟩
  · exact hanswers

theorem Settles.exists_found {answer : Except Error PlanResult} (h : p.Settles b answer)
    {as : List Action} {t : State} (hleads : p.Leads p.initialState as t) (hlength : as.length ≤ b)
    (hgoal : p.reaches t = .ok true) : ∃ plan, answer = .ok (.found plan) := by
  refine h.resolve_right ?_
  rintro ⟨-, hunreached⟩
  exact hunreached as t hleads hlength hgoal

section

variable {goals : List Atom} {Valid : strategy.Memory → Prop} {Fit : State → Prop} {maxNodes : Int}
  {outOfTime verbose : Bool} {answer : Except Error PlanResult}

theorem Proper.settles_of_concludes (hp : p.Proper)
    (hpolicy : Search.Admissible p strategy.policy Valid) (hmemory : Valid strategy.memory)
    {final : Search} {maxNodes : Count}
    (h : Search.Concludes p strategy.policy (some (.whole b)) verbose (.start p.initialState)
      strategy.memory final none) : p.Settles b (answerOf final (.whole b) maxNodes none) := by
  obtain ⟨last, memory, hsteps, ⟨hempty, hhalt⟩ | hfinds⟩ := h.ends rfl (Search.running_start _)
  · obtain ⟨-, hrunning⟩ := Search.sound_of_continues hsteps
    have hcovered := Search.covered_of_continues hp hpolicy hmemory hsteps
    refine Or.inr ⟨⟨_, by rw [answerOf, hhalt, hrunning.result_halt]⟩, ?_⟩
    intro as t hleads hlength hgoal
    obtain ⟨n, hn, -⟩ := hcovered.exists_waiting hleads hcovered.start (by omega) hgoal
    rw [hempty] at hn
    exact absurd hn List.not_mem_nil
  · obtain ⟨hsound, -⟩ := Search.sound_of_continues hsteps
    exact Or.inl (hp.exists_plan_of_finds hsound hfinds _ _)

theorem Proper.settles_or_fails (hp : p.Proper) (hgoals : p.goal = .conjunction goals)
    (hpolicy : Search.Admissible p strategy.policy Valid)
    (hreliable : Search.Reliable p strategy.policy Valid Fit) (hmemory : Valid strategy.memory)
    (hfit : Fit p.initialState) {final : Search} {error : Option Error} {maxNodes : Count}
    (h : Search.Concludes p strategy.policy (some (.whole b)) verbose (.start p.initialState)
      strategy.memory final error) : p.Settles b (answerOf final (.whole b) maxNodes error) ∨
        ∃ e, answerOf final (.whole b) maxNodes error = .error e ∧
        p.FailsFrom p.initialState e := by
  cases error with
  | some e =>
      exact Or.inr ⟨e, rfl, h.failure hp hpolicy hreliable (fun s hs => hp.exists_reaches hgoals hs)
        (Search.poised_start hp hmemory hfit) le_rfl (Search.regular_start _) rfl⟩
  | none => exact Or.inl (hp.settles_of_concludes hpolicy hmemory h)

/-- **A search for a conjunction that nothing disturbs settles it**, provided that its policy fails
only where a grounding does. -/
theorem Proper.settles (hp : p.Proper) (hgoals : p.goal = .conjunction goals)
    (hpolicy : Search.Admissible p strategy.policy Valid)
    (hreliable : Search.Reliable p strategy.policy Valid Fit) (hmemory : Valid strategy.memory)
    (hfit : Fit p.initialState) (hunreachable : p.unreachable? (.start p.initialState) = .ok none)
    (hanswer : (p.plan ⟨.whole b, .whole maxNodes, .ok outOfTime, verbose⟩ strategy).answer =
      answer)
    (hundisturbed : p.Undisturbed answer) : p.Settles b answer := by
  subst hanswer
  obtain ⟨final, error, hconcludes, hanswer⟩ := hundisturbed.exists_concludes hunreachable
  rw [hanswer] at hundisturbed ⊢
  rcases hp.settles_or_fails hgoals hpolicy hreliable hmemory hfit hconcludes with
      hsettles | ⟨e, heq, hfails⟩
  · exact hsettles
  · exact absurd (hfails.groundingFailure hp hp.initialState)
      (hundisturbed.grounding goals hgoals e heq)

/-- **A search for a conjunction that is continued answers, or it fails where a grounding does**,
provided that its policy fails only there and the nodes that wait are fit for it. -/
theorem Proper.continued_answers_or_fails (hp : p.Proper) (hgoals : p.goal = .conjunction goals)
    (hpolicy : Search.Admissible p strategy.policy Valid)
    (hreliable : Search.Reliable p strategy.policy Valid Fit) {c : Nat} {search : Search}
    (hpoised : Search.Poised p Valid Fit c search strategy.memory) (hle : b ≤ c)
    (hregular : search.Regular) (hunreachable : p.unreachable? search = .ok none)
    (hanswer : (p.planWith ⟨.whole b, .whole maxNodes, .ok outOfTime, verbose⟩ strategy
      search).answer = answer) :
    (∃ result, answer = .ok result) ∨ ∃ e, answer = .error e ∧ p.FailsFrom p.initialState e := by
  rcases concludes_or_cut (Or.inr hpoised.running) hregular hunreachable hanswer with
    ⟨final, error, hconcludes, rfl⟩ | ⟨_, hcut⟩ | ⟨_, hcut⟩
  · cases error with
    | some e =>
        exact Or.inr
          ⟨e, rfl, hconcludes.failure hp hpolicy hreliable (fun s hs => hp.exists_reaches hgoals hs)
          hpoised hle hregular rfl⟩
    | none =>
        exact Or.inl
          (hp.exists_result_of_concludes hpoised.sound hpoised.running hle hconcludes _ _)
  · exact Or.inl ⟨_, hcut⟩
  · exact Or.inl ⟨_, hcut⟩

theorem Proper.answers_or_fails (hp : p.Proper) (hgoals : p.goal = .conjunction goals)
    (hpolicy : Search.Admissible p strategy.policy Valid)
    (hreliable : Search.Reliable p strategy.policy Valid Fit) (hmemory : Valid strategy.memory)
    (hfit : Fit p.initialState) (hunreachable : p.unreachable? (.start p.initialState) = .ok none)
    (hanswer : (p.plan ⟨.whole b, .whole maxNodes, .ok outOfTime, verbose⟩ strategy).answer =
      answer) :
    (∃ result, answer = .ok result) ∨ ∃ e, answer = .error e ∧ p.FailsFrom p.initialState e :=
  hp.continued_answers_or_fails hgoals hpolicy hreliable
    (Search.poised_start hp hmemory hfit) le_rfl (Search.regular_start _) hunreachable hanswer

end

/-! ## Plans of least length -/

/-- No node waits from which the goal is reached with fewer actions in all than a node has that is
taken. -/
def TakesCheapest (p : Problem) (b : Nat) (strategy : Strategy) : Prop :=
  ∀ {last : Search} {memory memory' : strategy.Memory} {node : Node} {rest : List Node},
    Relation.ReflTransGen (Search.Continues p strategy.policy b)
      (.start p.initialState, strategy.memory) (last, memory) →
    Search.Takes strategy.policy memory last.frontier node rest memory' →
    ∀ n ∈ last.frontier, ∀ as t, p.Leads n.state as t → p.reaches t = .ok true →
      node.depth ≤ n.depth + as.length

theorem takesCheapest_breadthFirst (lines : List String) :
    TakesCheapest p b (StrategyName.breadthFirst.strategy p lines) := by
  intro last memory memory' node rest hsteps htakes n hn as t _ _
  have hordered : Search.Ordered last.frontier :=
    Search.invariant_of_continues (fun search _ => Search.Ordered search.frontier)
      (fun h hstep => h.continues hstep) hsteps (Search.ordered_start _)
  have hdepth := hordered.depth_le htakes hn
  omega

/-- A\* takes a node that does not cost more than any other, and what a node costs is at most the
length of a path to the goal by way of it. -/
theorem Proper.takesCheapest_astar (hp : p.Proper) (lines : List String) :
    TakesCheapest p b (StrategyName.astar.strategy p lines) := by
  intro last known known' node rest hsteps htakes n hn as t hleads hgoal
  have hvalid : Estimates.Valid p known :=
    Search.invariant_of_continues (fun _ known => Estimates.Valid p known)
      (fun h hstep => hstep.valid hp.admissible_leastCost h) hsteps Estimates.valid_empty
  obtain ⟨hsound, -⟩ := Search.sound_of_continues hsteps
  have hproper : ∀ n ∈ last.frontier, n.state.Proper := fun n hn =>
    (hsound.leads n hn).proper hp hp.initialState
  obtain ⟨least, ⟨estimate, -, rfl⟩, hall⟩ := Search.Takes.least htakes hvalid hproper
  obtain ⟨_, ⟨other, hother, rfl⟩, hleast⟩ := hall n hn
  have hlength := hp.estimate_le (hproper n hn) hother hleads hgoal
  omega

/-- **No path to the goal is shorter than a plan of a strategy that takes the cheapest nodes.** -/
theorem Proper.isLeast_of_takesCheapest (hp : p.Proper) {Valid : strategy.Memory → Prop}
    (hpolicy : Search.Admissible p strategy.policy Valid) (hmemory : Valid strategy.memory)
    (hcheapest : TakesCheapest p b strategy) {request : Request} (hbound : request.bound = .whole b)
    {plan : Plan} (h : (p.plan request strategy).answer = .ok (.found plan)) :
    IsLeast {n | ∃ as t, as.length = n ∧ p.Leads p.initialState as t ∧ p.reaches t = .ok true}
      plan.actions.length := by
  obtain ⟨last, memory, node, rest, memory', hsteps, htakes, hreaches, hactions, -⟩ :=
    hp.exists_of_plan_found hbound h
  obtain ⟨hsound, -⟩ := Search.sound_of_continues hsteps
  have hcovered := Search.covered_of_continues hp hpolicy hmemory hsteps
  rw [hactions]
  refine ⟨⟨node.actions, node.state, rfl, hsound.leads node htakes.mem, hreaches⟩, ?_⟩
  rintro n ⟨as, t, rfl, hleads, hgoal⟩
  by_contra hshorter
  have hshorter : as.length < node.depth := not_le.mp hshorter
  have hdepth := hsound.depth_le node htakes.mem
  -- on the shorter path a node waits that would have been taken before
  obtain ⟨m, hm, rest, hrest, hlength⟩ :=
    hcovered.exists_waiting hleads hcovered.start (by omega) hgoal
  have hcost := hcheapest hsteps htakes m hm rest t hrest hgoal
  omega

/-! ## A\* and breadth first -/

/-- What A\* and breadth first agree on: whether there is a plan within the bound, and the length of
their plans, which is the least of all paths to the goal.  With a conjunction for a goal both of
them answer. -/
structure Agree (p : Problem) (b : Int) (astar breadthFirst : Except Error PlanResult) : Prop where
  answers : 0 ≤ b → ∀ goals, p.goal = .conjunction goals →
    (∃ result, astar = .ok result) ∧ ∃ result, breadthFirst = .ok result
  found_iff : (∃ plan, astar = .ok (.found plan)) ↔ ∃ plan, breadthFirst = .ok (.found plan)
  shortest : ∀ plan plan', astar = .ok (.found plan) → breadthFirst = .ok (.found plan') →
    plan.actions.length = plan'.actions.length ∧
      IsLeast {n | ∃ as t, as.length = n ∧ p.Leads p.initialState as t ∧ p.reaches t = .ok true}
        plan.actions.length

section

variable {maxNodes maxNodes' : Int} {outOfTime outOfTime' verbose verbose' : Bool}
  {lines lines' : List String} {astar breadthFirst : Except Error PlanResult}

/-- Where both find a plan, no path to the goal is shorter than either. -/
theorem Proper.shortest_of_found (hp : p.Proper) {plan plan' : Plan}
    (hastar : (p.plan ⟨.whole b, .whole maxNodes, .ok outOfTime, verbose⟩
      (StrategyName.astar.strategy p lines)).answer = .ok (.found plan))
    (hbreadthFirst : (p.plan ⟨.whole b, .whole maxNodes', .ok outOfTime', verbose'⟩
      (StrategyName.breadthFirst.strategy p lines')).answer = .ok (.found plan')) :
    plan.actions.length = plan'.actions.length ∧
      IsLeast {n | ∃ as t, as.length = n ∧ p.Leads p.initialState as t ∧ p.reaches t = .ok true}
        plan.actions.length := by
  have hleast := hp.isLeast_of_takesCheapest hp.admissible_leastCost Estimates.valid_empty
    (hp.takesCheapest_astar lines) rfl hastar
  have hleast' := hp.isLeast_of_takesCheapest (Search.admissible_of_keepAll rfl) trivial
    (takesCheapest_breadthFirst lines') rfl hbreadthFirst
  exact ⟨hleast.unique hleast', hleast⟩

/-- A conjunction is reached by a path that both find, or both have shown that there is none. -/
theorem Proper.agree_of_conjunction (hp : p.Proper) {goals : List Atom}
    (hgoals : p.goal = .conjunction goals)
    (hunreachable : p.unreachable? (.start p.initialState) = .ok none)
    (hastar : (p.plan ⟨.whole b, .whole maxNodes, .ok outOfTime, verbose⟩
      (StrategyName.astar.strategy p lines)).answer = astar)
    (hbreadthFirst : (p.plan ⟨.whole b, .whole maxNodes', .ok outOfTime', verbose'⟩
      (StrategyName.breadthFirst.strategy p lines')).answer = breadthFirst)
    (hundisturbed : p.Undisturbed astar) (hundisturbed' : p.Undisturbed breadthFirst) :
    p.Agree b astar breadthFirst := by
  have hsettles := hp.settles hgoals hp.admissible_leastCost hp.reliable_leastCost
    Estimates.valid_empty (hp.hasEstimate_of_unreachable? hunreachable) hunreachable hastar
      hundisturbed
  have hsettles' := hp.settles hgoals (Search.admissible_of_keepAll rfl) p.reliable_oldest
    trivial trivial hunreachable hbreadthFirst hundisturbed'
  refine ⟨fun _ _ _ => ⟨hsettles.exists_ok, hsettles'.exists_ok⟩, ⟨?_, ?_⟩, ?_⟩
  · rintro ⟨plan, hfound⟩
    obtain ⟨as, t, hleads, hlength, hgoal⟩ := hp.exists_leads_of_found rfl (hastar.trans hfound)
    exact hsettles'.exists_found hleads hlength hgoal
  · rintro ⟨plan, hfound⟩
    obtain ⟨as, t, hleads, hlength, hgoal⟩ :=
      hp.exists_leads_of_found rfl (hbreadthFirst.trans hfound)
    exact hsettles.exists_found hleads hlength hgoal
  · intro plan plan' hfound hfound'
    exact hp.shortest_of_found (hastar.trans hfound) (hbreadthFirst.trans hfound')

/-- With a test for a goal both come to one conclusion, be it a failure. -/
theorem Proper.agree_of_test (hp : p.Proper) {passes : State → Except Error Bool}
    (hgoal : p.goal = .test passes)
    (hastar : (p.plan ⟨.whole b, .whole maxNodes, .ok outOfTime, verbose⟩
      (StrategyName.astar.strategy p lines)).answer = astar)
    (hbreadthFirst : (p.plan ⟨.whole b, .whole maxNodes', .ok outOfTime', verbose'⟩
      (StrategyName.breadthFirst.strategy p lines')).answer = breadthFirst)
    (hundisturbed : p.Undisturbed astar) (hundisturbed' : p.Undisturbed breadthFirst) :
    p.Agree b astar breadthFirst := by
  have hunreachable : p.unreachable? (.start p.initialState) = .ok none := by
    rw [unreachable?, goals?, hgoal]
  have hordered := Search.ordered_start p.initialState
  obtain ⟨final, error, hconcludes, hanswer⟩ :=
    (hastar.symm ▸ hundisturbed).exists_concludes hunreachable
  obtain ⟨final', error', hconcludes', hanswer'⟩ :=
    (hbreadthFirst.symm ▸ hundisturbed').exists_concludes hunreachable
  have holdest := hconcludes.oldest hp hp.admissible_leastCost (oldestFirst_leastCost hgoal)
    Search.sound_start hordered Estimates.valid_empty
  have holdest' :=
    hconcludes'.oldest hp (Search.admissible_of_keepAll rfl) Search.oldestFirst_oldest
    Search.sound_start hordered trivial
  -- both come to a conclusion of breadth first, and there is one
  obtain ⟨rfl, rfl⟩ := holdest.unique holdest'
  have heq : ∀ plan, astar = .ok (.found plan) ↔ breadthFirst = .ok (.found plan) := by
    intro plan
    rw [← hastar, ← hbreadthFirst, hanswer, hanswer']
    cases error with
    | some e => exact Iff.rfl
    | none => exact ⟨Search.result_eq_found, Search.result_eq_found⟩
  refine ⟨?_, exists_congr heq, ?_⟩
  · intro _ goals hgoals
    cases hgoal.symm.trans hgoals
  · intro plan plan' hfound hfound'
    exact hp.shortest_of_found (hastar.trans hfound) (hbreadthFirst.trans hfound')

/-- **A\* and breadth first agree** where no grounding fails and no limit cuts them short: one of
them finds a plan exactly when the other does, and their plans are as short as any path to the goal.
At no point does A\* add a depth to an estimate that is not there. -/
theorem Proper.agree_of_undisturbed (hp : p.Proper) (bound : Int)
    (hastar : (p.plan ⟨.whole bound, .whole maxNodes, .ok outOfTime, verbose⟩
      (StrategyName.astar.strategy p lines)).answer = astar)
    (hbreadthFirst : (p.plan ⟨.whole bound, .whole maxNodes', .ok outOfTime', verbose'⟩
      (StrategyName.breadthFirst.strategy p lines')).answer = breadthFirst)
    (hundisturbed : p.Undisturbed astar) (hundisturbed' : p.Undisturbed breadthFirst) :
    (∀ (n : Nat) last known, p.unreachable? (.start p.initialState) = .ok none →
      Relation.ReflTransGen (Search.Continues p (Policy.leastCost p) n) (.start p.initialState, ∅)
        (last, known) → Search.AddsEstimates p known last.frontier) ∧
    p.Agree bound astar breadthFirst := by
  refine ⟨?_, ?_⟩
  · intro n last known hunreachable hsteps
    exact Search.addsEstimates_of_continues hp hunreachable hsteps
  · -- a negative bound is refused, and the relaxed graph may rule the goal out; in both cases
    -- nothing is searched
    by_cases hnegative : bound < 0
    · obtain rfl := hastar.symm.trans (answer_of_negative hnegative)
      obtain rfl := hbreadthFirst.symm.trans (answer_of_negative hnegative)
      exact ⟨fun hle => absurd hle (not_le.mpr hnegative), ⟨nofun, nofun⟩, nofun⟩
    · obtain ⟨b, rfl⟩ := Int.eq_ofNat_of_zero_le (not_lt.mp hnegative)
      cases hgoal : p.goal with
      | test passes =>
          exact hp.agree_of_test hgoal hastar hbreadthFirst hundisturbed hundisturbed'
      | conjunction goals =>
          rcases hunreachable : p.unreachable? (.start p.initialState) with e | _ | layers
          · have herror := hastar.symm.trans (answer_of_unreachable?_eq_error hunreachable)
            exact absurd (hp.groundingFailure_of_unreachable? hunreachable)
              (hundisturbed.grounding goals hgoal e herror)
          · exact hp.agree_of_conjunction hgoal hunreachable hastar hbreadthFirst hundisturbed
              hundisturbed'
          · obtain rfl := hastar.symm.trans (answer_of_unreachable?_eq_some hunreachable)
            obtain rfl := hbreadthFirst.symm.trans (answer_of_unreachable?_eq_some hunreachable)
            exact ⟨fun _ _ _ => ⟨⟨_, rfl⟩, ⟨_, rfl⟩⟩, ⟨nofun, nofun⟩, nofun⟩

end

/-- Both eat the cake and bake it again. -/
theorem agree_of_undisturbed_haveCake : ∃ p plan plan', Worlds.haveCake = .ok p ∧ p.Proper ∧
    (p.plan ⟨3, 100, .ok false, false⟩ (StrategyName.astar.strategy p [])).answer =
      .ok (.found plan) ∧
    (p.plan ⟨3, 100, .ok false, false⟩ (StrategyName.breadthFirst.strategy p [])).answer
      = .ok (.found plan') ∧
    p.Undisturbed (.ok (.found plan)) ∧ p.Undisturbed (.ok (.found plan')) ∧
    Search.AddsEstimates p ∅ (Search.start p.initialState).frontier ∧
    p.Agree 3 (.ok (.found plan)) (.ok (.found plan')) := by
  obtain ⟨p, hcake, hproper⟩ := exists_haveCake
  have hfound : ((Worlds.haveCake.toOption.bind fun p => (p.plan ⟨3, 100, .ok false, false⟩
      (StrategyName.astar.strategy p [])).answer.toOption.bind PlanResult.plan?)).isSome := by
    decide +kernel
  have hfound' : ((Worlds.haveCake.toOption.bind fun p => (p.plan ⟨3, 100, .ok false, false⟩
      (StrategyName.breadthFirst.strategy p [])).answer.toOption.bind
      PlanResult.plan?)).isSome := by
    decide +kernel
  have hunreachable : (Worlds.haveCake.toOption.bind fun p =>
      (p.unreachable? (.start p.initialState)).toOption) = some none := by
    decide +kernel
  rw [hcake] at hfound hfound' hunreachable
  obtain ⟨plan, hplan⟩ := PlanResult.exists_of_plan?_isSome hfound
  obtain ⟨plan', hplan'⟩ := PlanResult.exists_of_plan?_isSome hfound'
  have hundisturbed : p.Undisturbed (.ok (.found plan)) := p.undisturbed_of_found rfl
  have hundisturbed' : p.Undisturbed (.ok (.found plan')) := p.undisturbed_of_found rfl
  obtain ⟨hadds, hagree⟩ := hproper.agree_of_undisturbed 3 hplan hplan' hundisturbed hundisturbed'
  exact ⟨p, plan, plan', hcake, hproper, hplan, hplan', hundisturbed, hundisturbed',
    hadds 3 _ ∅ (eq_ok_of_toOption hunreachable) .refl, hagree⟩

end Problem

end HornPlan
