import HornPlan.Planner
import HornPlan.Simulation
import HornPlan.Worlds.Cake
import HornPlan.Proofs.Strategies

/-!
# What the answers of the planner mean

A plan that is found solves the problem within the bound (`Proper.solves_of_plan`): its actions are
executed one after the other from the initial state, its states are those they lead through, the
last one reaches the goal, and a simulation accepts it.  With the oldest node taken first no plan is
shorter (`Proper.isLeast_length`).

Where none is found, the reason says how far the search has looked
(`Proper.reaches_ne_of_notFound`): an exhausted frontier means that no path within the bound reaches
the goal, and an unreachable goal that no path does.  Both are read off the search at the end of its
run.
-/

namespace HornPlan

/-! ## Executing a path -/

namespace Problem

variable {p : Problem} {s t : State} {as : List Action} {ss : List State}

/-- Actions are executed one after the other and lead through states, the first one included. -/
inductive Runs (p : Problem) : State → List Action → List State → Prop
  | nil (s : State) : Runs p s [] [s]
  | cons {s t : State} {a : Action} {as : List Action} {ss : List State} (h : p.Executes s a t)
      (hrest : Runs p t as ss) : Runs p s (a :: as) (s :: ss)

theorem Runs.length_eq (h : p.Runs s as ss) : ss.length = as.length + 1 := by
  induction h with
  | nil => rfl
  | cons _ _ ih => rw [List.length_cons, ih, List.length_cons]

theorem Executes.result_eq {a : Action} (h : p.Executes s a t) : a.result s = t := by
  obtain ⟨_, -, happlied⟩ := bind_eq_ok.mp h.applied
  exact Except.ok.inj happlied

theorem Executes.holds {a : Action} (h : p.Executes s a t) :
    p.staticHolds a = .ok true ∧ a.isApplicable s = .ok true := by
  obtain ⟨static, hstatic, happlicable⟩ := bind_eq_ok.mp h.isExecutable
  cases static with
  | true => exact ⟨hstatic, happlicable⟩
  | false => cases happlicable

theorem Proper.runs_of_statesAfter (hp : p.Proper) (hs : s.Proper) (h : p.Leads s as t)
    (hstates : statesAfter s as = .ok ss) :
    p.Runs s as (s :: ss) ∧ (s :: ss).getLast? = some t := by
  induction h generalizing ss with
  | nil s =>
      obtain rfl := Except.ok.inj hstates
      exact ⟨.nil s, rfl⟩
  | @cons s u t a as l hl hmem _ ih =>
      have hexecutes := hp.executes hs hl hmem
      rw [statesAfter, hexecutes.applied, ok_bind] at hstates
      obtain ⟨rest, hrest, hstates⟩ := bind_eq_ok.mp hstates
      obtain rfl := Except.ok.inj hstates
      obtain ⟨hruns, hlast⟩ := ih (hp.successor hs hl hmem) hrest
      exact ⟨.cons hexecutes hruns, by rw [List.getLast?_cons_cons, hlast]⟩

/-- A simulation accepts actions that are executed and lead to the goal. -/
theorem Runs.simulateFrom_eq (h : p.Runs s as ss) (hlast : ss.getLast? = some t)
    (hreaches : p.reaches t = .ok true) (index : Nat) :
    p.simulateFrom index s (as.map .action) = .ok .goalReached := by
  induction h generalizing index with
  | nil s =>
      have heq : s = t := Option.some.inj hlast
      rw [List.map_nil, simulateFrom, heq, hreaches]
      rfl
  | @cons s u a as ss hexecutes hrest ih =>
      obtain ⟨hstatic, happlicable⟩ := hexecutes.holds
      have hlast : ss.getLast? = some t := by
        cases hrest with
        | nil => exact hlast
        | cons => rwa [List.getLast?_cons_cons] at hlast
      rw [List.map_cons, simulateFrom, resolve]
      dsimp only
      rw [hstatic, ok_bind, happlicable, ok_bind, hexecutes.result_eq]
      exact ih hlast (index + 1)

theorem Runs.simulate_accepted (h : p.Runs p.initialState as ss) (hlast : ss.getLast? = some t)
    (hreaches : p.reaches t = .ok true) :
    ∃ report, p.simulate (as.map .action) = .ok report ∧ report.accepted := by
  rw [simulate]
  cases as with
  | nil =>
      cases h
      have heq : p.initialState = t := Option.some.inj hlast
      rw [List.map_nil, List.isEmpty_nil, if_pos rfl, heq, hreaches]
      exact ⟨.goalHoldsInitially, rfl, rfl⟩
  | cons a as => exact ⟨.goalReached, h.simulateFrom_eq hlast hreaches 1, rfl⟩

end Problem

/-! ## Reasons -/

namespace NoPlanReason

/-- The reasons for which a search that is not continued from elsewhere may end without a plan. -/
inductive OfSearch (bound maxNodes : Count) : NoPlanReason → Prop
  | withinBound : OfSearch bound maxNodes (.withinBound bound)
  | nodeLimit : OfSearch bound maxNodes (.nodeLimit maxNodes)
  | halted (cause : HaltCause) : OfSearch bound maxNodes (.halted (.cause cause))

variable {bound maxNodes : Count} {reason : NoPlanReason}

theorem getElem?_toList_append {first second : String} (h : 2 < first.toList.length) :
    (first ++ second).toList[2]? = first.toList[2]? := by
  rw [String.toList_append, List.getElem?_append_left h]

-- the third characters of the wordings differ
theorem getElem?_text_withinBound : (NoPlanReason.withinBound bound).text.toList[2]? = some ' ' :=
  (getElem?_toList_append (by decide)).trans (by decide)

theorem getElem?_text_nodeLimit : (NoPlanReason.nodeLimit maxNodes).text.toList[2]? = some 'd' := by
  have hhead : ("node limit " ++ maxNodes.text).toList[2]? = some 'd' :=
    (getElem?_toList_append (by decide)).trans (by decide)
  refine (getElem?_toList_append ?_).trans hhead
  rw [String.toList_append, List.length_append]
  exact Nat.lt_add_right _ (by decide)

theorem OfSearch.eq_withinBound (h : OfSearch bound maxNodes reason)
    (htext : reason.text = (NoPlanReason.withinBound bound).text) :
    reason = .withinBound bound := by
  have hthird := congrArg (fun text => text.toList[2]?) htext
  rw [getElem?_text_withinBound] at hthird
  cases h with
  | withinBound => rfl
  | nodeLimit =>
      rw [getElem?_text_nodeLimit] at hthird
      exact absurd hthird (by decide)
  | halted cause => cases cause <;> exact absurd hthird (by decide)

theorem OfSearch.eq_goalUnreachable (h : OfSearch bound maxNodes reason)
    (htext : reason.text = "goal unreachable") : reason = .halted (.cause .goalUnreachable) := by
  have hthird := congrArg (fun text => text.toList[2]?) htext
  cases h with
  | withinBound =>
      rw [getElem?_text_withinBound] at hthird
      exact absurd hthird (by decide)
  | nodeLimit =>
      rw [getElem?_text_nodeLimit] at hthird
      exact absurd hthird (by decide)
  | halted cause =>
      cases cause with
      | goalUnreachable => rfl
      | _ => exact absurd htext (by decide)

end NoPlanReason

/-! ## Results -/

namespace PlanResult

/-- The plan of a result, where there is one. -/
def plan? : PlanResult → Option Plan
  | found plan => some plan
  | notFound _ _ _ => none

/-- The reason of a result, where there is no plan. -/
def reason? : PlanResult → Option NoPlanReason
  | found _ => none
  | notFound reason _ _ => some reason

/-- The limit on the nodes that was hit, where it was that. -/
def limit? : PlanResult → Option Count
  | notFound (.nodeLimit limit) _ _ => some limit
  | _ => none

variable {answer : Except Error PlanResult}

theorem eq_found_of_plan?_eq {plan : Plan} (h : answer.toOption.bind plan? = some plan) :
    answer = .ok (.found plan) := by
  rcases answer with _ | found | _
  · cases h
  · rw [Option.some.inj h]
  · cases h

theorem exists_of_plan?_isSome (h : (answer.toOption.bind plan?).isSome) :
    ∃ plan, answer = .ok (.found plan) := by
  obtain ⟨plan, hplan⟩ := Option.isSome_iff_exists.mp h
  exact ⟨plan, eq_found_of_plan?_eq hplan⟩

theorem exists_of_reason?_eq {text : String}
    (h : (answer.toOption.bind reason?).map NoPlanReason.text = some text) :
    ∃ reason nodesExpanded within, answer = .ok (.notFound reason nodesExpanded within) ∧
      reason.text = text := by
  rcases answer with _ | _ | ⟨reason, nodesExpanded, within⟩
  · cases h
  · cases h
  · exact ⟨reason, nodesExpanded, within, rfl, Option.some.inj h⟩

theorem exists_of_limit?_isSome (h : (answer.toOption.bind limit?).isSome) :
    ∃ limit nodesExpanded within,
    answer = .ok (.notFound (.nodeLimit limit) nodesExpanded within) := by
  rcases answer with _ | _ | ⟨_ | limit | _ | _ | _ | _, nodesExpanded, within⟩
  case ok.notFound.nodeLimit => exact ⟨limit, nodesExpanded, within, rfl⟩
  all_goals cases h

end PlanResult

/-! ## Reading the result off a search -/

namespace Search

variable {p : Problem} {M : Type} {policy : Policy M} {bound maxNodes : Count}

theorem extract_cases {search : Search} {extracted : Option Plan}
    (h : search.extract = .ok extracted) : (search.solution = none ∧ extracted = none) ∨
      ∃ node plan, search.solution = some node ∧ extracted = some plan ∧
        planFrom search.initialState node.actions search.step = .ok plan := by
  unfold extract at h
  split at h
  · rename_i hnone
    exact Or.inl ⟨hnone, (Except.ok.inj h).symm⟩
  · rename_i node hsome
    cases hplan : planFrom search.initialState node.actions search.step with
    | error error =>
        rw [hplan] at h
        cases h
    | ok plan =>
        rw [hplan] at h
        exact Or.inr ⟨node, plan, hsome, (Except.ok.inj h).symm, hplan⟩

theorem exists_of_result_eq_found {search : Search} {plan : Plan}
    (h : search.result bound maxNodes = .ok (.found plan)) : ∃ node, search.solution = some node ∧
      planFrom search.initialState node.actions search.step = .ok plan := by
  obtain ⟨extracted, hextracted, h⟩ := bind_eq_ok.mp h
  rcases extract_cases hextracted with ⟨-, rfl⟩ | ⟨node, replayed, hsolution, rfl, hplan⟩
  · cases Except.ok.inj h
  · obtain rfl := PlanResult.found.inj (Except.ok.inj h)
    exact ⟨node, hsolution, hplan⟩

theorem eq_of_result_eq_notFound {search : Search} {reason : NoPlanReason} {nodesExpanded : Count}
    {within : Option Count}
    (h : search.result bound maxNodes = .ok (.notFound reason nodesExpanded within)) :
    search.solution = none ∧ reason = search.failure bound maxNodes := by
  obtain ⟨extracted, hextracted, h⟩ := bind_eq_ok.mp h
  rcases extract_cases hextracted with ⟨hsolution, rfl⟩ | ⟨_, _, -, rfl, -⟩
  · obtain ⟨rfl, -, -⟩ := PlanResult.notFound.inj (Except.ok.inj h)
    exact ⟨hsolution, rfl⟩
  · cases Except.ok.inj h

theorem Ends.found_cases {last final : Search} {memory : M} {plan : Plan}
    (h : Ends p policy last memory final) (hrunning : last.Running)
    (hresult : final.result bound maxNodes = .ok (.found plan)) :
    ∃ node rest memory' step, Takes policy memory last.frontier node rest memory' ∧
      p.reaches node.state = .ok true ∧
      planFrom last.initialState node.actions step = .ok plan := by
  obtain ⟨node, hsolution, hplan⟩ := exists_of_result_eq_found hresult
  cases h with
  | limit => cases hrunning.solution.symm.trans hsolution
  | stopped => cases hrunning.solution.symm.trans hsolution
  | exhausted => cases hrunning.solution.symm.trans hsolution
  | found hfinds =>
      obtain @⟨memory', taken, rest, step, history, htakes, hreaches⟩ := hfinds
      obtain rfl := Option.some.inj hsolution
      exact ⟨taken, rest, memory', step, htakes, hreaches, hplan⟩

/-- Why a search ended without a plan: it says so of the bound when no node was left, and it never
says that the goal is unreachable. -/
theorem Ends.notFound_cases {last final : Search} {memory : M} {reason : NoPlanReason}
    {nodesExpanded : Count} {within : Option Count} (h : Ends p policy last memory final)
    (hrunning : last.Running)
    (hresult : final.result bound maxNodes = .ok (.notFound reason nodesExpanded within)) :
    reason.OfSearch bound maxNodes ∧ reason ≠ .halted (.cause .goalUnreachable) ∧
      (reason = .withinBound bound → last.frontier = []) := by
  obtain ⟨hsolution, rfl⟩ := eq_of_result_eq_notFound hresult
  -- a search that has not halted says that its limit was hit, and each cause of halting names
  -- itself
  cases h with
  | limit =>
      have hlimit : last.failure bound maxNodes = .nodeLimit maxNodes := by
        rw [failure, hrunning.haltReason, HaltReason.unknown, hrunning.halted]
        rfl
      rw [hlimit]
      exact ⟨.nodeLimit, nofun, nofun⟩
  | stopped cause hcause =>
      rcases hcause with rfl | rfl
      · exact ⟨.halted .stopConditionMet, nofun, nofun⟩
      · exact ⟨.halted .timeLimitExceeded, nofun, nofun⟩
  | exhausted hempty => exact ⟨.withinBound, nofun, fun _ => hempty⟩
  | found hfinds =>
      cases hfinds
      cases hsolution

end Search

/-! ## The answers of the planner -/

namespace Problem

variable {p : Problem} {request : Request} {strategy : Strategy} {b : Nat}

theorem Proper.hopeless_of_unreachable? (hp : p.Proper) {layers : Nat}
    (h : p.unreachable? (.start p.initialState) = .ok (some layers)) :
    p.Hopeless p.initialState := by
  unfold unreachable? at h
  split at h
  · cases h
  · rename_i goals hgoals
    have hfirst : (!(Search.start p.initialState).step.isZero) = false := rfl
    rw [hfirst, if_neg Bool.false_ne_true] at h
    obtain ⟨reached, -, h⟩ := bind_eq_ok.mp h
    cases reached with
    | true => cases h
    | false =>
        rw [if_neg Bool.false_ne_true, RelaxedGraph.start?_eq_ok hp, ok_bind] at h
        split at h
        · cases h
        · cases h
        · rename_i next hlevel
          exact RelaxedGraph.hopeless_of_goalLevel_eq_none hp hp.initialState
            (goals?_eq_some.mp hgoals) hlevel

theorem exists_haveCake : ∃ p, Worlds.haveCake = .ok p ∧ p.Proper :=
  exists_ok_of_isProper (by decide +kernel)

theorem exists_haveCake_conjunction : ∃ p goals, Worlds.haveCake = .ok p ∧ p.Proper ∧
    p.goal = .conjunction goals := by
  obtain ⟨p, hcake, hproper⟩ := exists_haveCake
  have hgoals : (Worlds.haveCake.toOption.bind goals?).isSome := by decide +kernel
  rw [hcake] at hgoals
  obtain ⟨goals, hgoals⟩ := Option.isSome_iff_exists.mp hgoals
  exact ⟨p, goals, hcake, hproper, goals?_eq_some.mp hgoals⟩

/-- **How the planner comes to an answer**: the relaxed graph rules the goal out, or the answer is
read off the search that a run leaves behind. -/
theorem planTimed_cases {request : TimedRequest} {search : Search} {answer : PlanResult}
    (h : (p.planTimed request strategy search).answer = .ok answer) :
    request.bound.requireBound = .ok () ∧
      ((answer = .notFound (.halted (.cause .goalUnreachable)) 0 (some request.bound) ∧
          (∃ layers, p.unreachable? search = .ok (some layers)) ∧
          (p.planTimed request strategy search).search = search.halt .goalUnreachable) ∨
        p.unreachable? search = .ok none ∧
        ∃ run, search.runTimed p strategy.policy (some request.bound) request.verbose request.limits
            strategy.memory = run ∧
          run.error = none ∧ (p.planTimed request strategy search).search = run.search ∧
          run.search.result request.bound request.maxNodes = .ok answer) := by
  unfold planTimed at h ⊢
  split at h
  · cases h
  · rename_i layers hlayers
    obtain ⟨_, hbound, hunreachable⟩ := bind_eq_ok.mp hlayers
    exact ⟨hbound, Or.inl ⟨(Except.ok.inj h).symm, ⟨layers, hunreachable⟩, rfl⟩⟩
  · rename_i hnone
    obtain ⟨_, hbound, hunreachable⟩ := bind_eq_ok.mp hnone
    dsimp only at h ⊢
    split at h
    · cases h
    · rename_i hfinished
      exact ⟨hbound, Or.inr ⟨hunreachable, _, rfl, hfinished, rfl, h⟩⟩

/-- The same where the clock has one answer. -/
theorem planWith_cases {search : Search} {answer : PlanResult}
    (h : (p.planWith request strategy search).answer = .ok answer) :
    (answer = .notFound (.halted (.cause .goalUnreachable)) 0 (some request.bound) ∧
        (∃ layers, p.unreachable? search = .ok (some layers)) ∧
        (p.planWith request strategy search).search = search.halt .goalUnreachable) ∨
      ∃ run, search.run p strategy.policy (some request.bound) request.verbose
          ⟨request.maxNodes, request.outOfTime, fun _ => .ok false⟩ strategy.memory = run ∧
        run.error = none ∧ (p.planWith request strategy search).search = run.search ∧
        run.search.result request.bound request.maxNodes = .ok answer :=
  (planTimed_cases h).2.imp id And.right

theorem Proper.plan_cases (hp : p.Proper) (hbound : request.bound = .whole b) {answer : PlanResult}
    (h : (p.plan request strategy).answer = .ok answer) :
    (answer = .notFound (.halted (.cause .goalUnreachable)) 0 (some request.bound) ∧
        p.Hopeless p.initialState) ∨
      ∃ last memory final, Relation.ReflTransGen (Search.Continues p strategy.policy b)
          (.start p.initialState, strategy.memory) (last, memory) ∧
        Search.Ends p strategy.policy last memory final ∧
        final.result request.bound request.maxNodes = .ok answer := by
  rcases planWith_cases h with ⟨hanswer, ⟨layers, hlayers⟩, -⟩ | ⟨run, hrun, hfinished, -, hresult⟩
  · exact Or.inl ⟨hanswer, hp.hopeless_of_unreachable? hlayers⟩
  · rw [hbound] at hrun
    obtain ⟨last, memory, hsteps, hends⟩ :=
      Search.runFor_spec (Search.running_start p.initialState) hrun hfinished
    exact Or.inr ⟨last, memory, _, hsteps, hends, hresult⟩

theorem Proper.exists_of_plan_found (hp : p.Proper) (hbound : request.bound = .whole b)
    {plan : Plan} (h : (p.plan request strategy).answer = .ok (.found plan)) :
    ∃ last memory node rest memory', Relation.ReflTransGen (Search.Continues p strategy.policy b)
        (.start p.initialState, strategy.memory) (last, memory) ∧
      Search.Takes strategy.policy memory last.frontier node rest memory' ∧
      p.reaches node.state = .ok true ∧ plan.actions = node.actions ∧
      ∃ ss, statesAfter p.initialState node.actions = .ok ss ∧
      plan.states = p.initialState :: ss := by
  rcases hp.plan_cases hbound h with ⟨hanswer, -⟩ | ⟨last, memory, final, hsteps, hends, hresult⟩
  · cases hanswer
  · obtain ⟨hsound, hrunning⟩ := Search.sound_of_continues hsteps
    obtain ⟨node, rest, memory', step, htakes, hreaches, hplan⟩ :=
      hends.found_cases hrunning hresult
    rw [hsound.initialState] at hplan
    obtain ⟨ss, hss, hplan⟩ := bind_eq_ok.mp hplan
    obtain rfl := Except.ok.inj hplan
    exact ⟨last, memory, node, rest, memory', hsteps, htakes, hreaches, rfl, ss, hss, rfl⟩

theorem Proper.exists_leads_of_found (hp : p.Proper) (hbound : request.bound = .whole b)
    {plan : Plan} (h : (p.plan request strategy).answer = .ok (.found plan)) :
    ∃ as t, p.Leads p.initialState as t ∧ as.length ≤ b ∧ p.reaches t = .ok true := by
  obtain ⟨last, memory, node, rest, memory', hsteps, htakes, hreaches, -⟩ :=
    hp.exists_of_plan_found hbound h
  obtain ⟨hsound, -⟩ := Search.sound_of_continues hsteps
  exact ⟨node.actions, node.state, hsound.leads node htakes.mem, hsound.depth_le node htakes.mem,
    hreaches⟩

/-- A plan within a bound: its actions are executed from the initial state through its states, the
last one reaches the goal, and a simulation accepts it. -/
structure Solves (p : Problem) (b : Nat) (plan : Plan) : Prop where
  length_le : plan.actions.length ≤ b
  states_length : plan.states.length = plan.actions.length + 1
  runs : p.Runs p.initialState plan.actions plan.states
  reaches : p.reaches plan.finalState = .ok true
  accepted : ∃ report, p.simulate (plan.actions.map .action) = .ok report ∧ report.accepted

theorem Runs.solves {plan : Plan} {t : State}
    (hruns : p.Runs p.initialState plan.actions plan.states) (hlast : plan.states.getLast? = some t)
    (hreaches : p.reaches t = .ok true) (hlength : plan.actions.length ≤ b) : p.Solves b plan := by
  have hfinal : plan.finalState = t := by
    rw [Plan.finalState, hlast]
    rfl
  exact ⟨hlength, hruns.length_eq, hruns, hfinal ▸ hreaches, hruns.simulate_accepted hlast hreaches⟩

theorem Proper.solves_of_leads (hp : p.Proper) {as : List Action} {t : State} {ss : List State}
    {plan : Plan} (hleads : p.Leads p.initialState as t) (hlength : as.length ≤ b)
    (hreaches : p.reaches t = .ok true) (hss : statesAfter p.initialState as = .ok ss)
    (hactions : plan.actions = as) (hstates : plan.states = p.initialState :: ss) :
    p.Solves b plan := by
  obtain ⟨hruns, hlast⟩ := hp.runs_of_statesAfter hp.initialState hleads hss
  subst hactions
  rw [← hstates] at hruns hlast
  exact hruns.solves hlast hreaches hlength

/-- **A plan that is found solves the problem within the bound**, whatever strategy finds it and
whatever else the request asks for. -/
theorem Proper.solves_of_plan (hp : p.Proper) (hbound : request.bound = .whole b) {plan : Plan}
    (h : (p.plan request strategy).answer = .ok (.found plan)) : p.Solves b plan := by
  obtain ⟨last, memory, node, rest, memory', hsteps, htakes, hreaches, hactions, ss,
      hss, hstates⟩ :=
    hp.exists_of_plan_found hbound h
  obtain ⟨hsound, -⟩ := Search.sound_of_continues hsteps
  have hleads := hsound.leads node htakes.mem
  exact hp.solves_of_leads hleads (hsound.depth_le node htakes.mem) hreaches hss hactions hstates

/-- The cake is eaten and baked again. -/
theorem solves_of_plan_haveCake : ∃ p plan, Worlds.haveCake = .ok p ∧ p.Proper ∧
    (p.plan ⟨3, 100, .ok false, false⟩ (StrategyName.astar.strategy p [])).answer =
      .ok (.found plan) ∧
    p.Solves 3 plan := by
  obtain ⟨p, hcake, hproper⟩ := exists_haveCake
  have hfound : ((Worlds.haveCake.toOption.bind fun p => (p.plan ⟨3, 100, .ok false, false⟩
      (StrategyName.astar.strategy p [])).answer.toOption.bind PlanResult.plan?)).isSome := by
    decide +kernel
  rw [hcake] at hfound
  obtain ⟨plan, hplan⟩ := PlanResult.exists_of_plan?_isSome hfound
  exact ⟨p, plan, hcake, hproper, hplan, hproper.solves_of_plan rfl hplan⟩

/-- **The reason why there is no plan is true**: no path within the bound reaches the goal where the
search says so, and no path at all where it calls the goal unreachable. -/
theorem Proper.reaches_ne_of_notFound (hp : p.Proper) (hbound : request.bound = .whole b)
    (hoffered : Offered p strategy) {reason : NoPlanReason} {nodesExpanded : Count}
    {within : Option Count}
    (h : (p.plan request strategy).answer = .ok (.notFound reason nodesExpanded within)) :
    (reason.text = "no plan found within bound " ++ request.bound.text →
      ∀ as t, p.Leads p.initialState as t → as.length ≤ b → p.reaches t ≠ .ok true) ∧
    (reason.text = "goal unreachable" →
      ∀ as t, p.Leads p.initialState as t → p.reaches t ≠ .ok true) := by
  obtain ⟨Valid, hvalid, hadmissible⟩ := hoffered.admissible hp
  rcases hp.plan_cases hbound h with
      ⟨hanswer, hhopeless⟩ | ⟨last, memory, final, hsteps, hends, hresult⟩
  · obtain ⟨rfl, -, -⟩ := PlanResult.notFound.inj hanswer
    exact ⟨fun _ as t hleads _ => hhopeless as t hleads, fun _ => hhopeless⟩
  · obtain ⟨-, hrunning⟩ := Search.sound_of_continues hsteps
    have hcovered := Search.covered_of_continues hp hadmissible hvalid hsteps
    obtain ⟨hreason, hreachable, hempty⟩ := hends.notFound_cases hrunning hresult
    refine ⟨?_, ?_⟩
    · intro htext as t hleads hlength
      -- an empty frontier has no node above any depth, so that every path within the bound has been
      -- followed
      have hfrontier : ∀ n ∈ last.frontier, b + 1 ≤ n.depth := by
        rw [hempty (hreason.eq_withinBound htext)]
        intro _ hn
        exact absurd hn List.not_mem_nil
      exact hcovered.reaches_ne (b + 1) hfrontier le_rfl hleads hcovered.start (by omega)
    · intro htext
      exact absurd (hreason.eq_goalUnreachable htext) hreachable

/-- Having a loaf of bread, which nobody bakes. -/
def haveBread : Except Error Problem := do
  let eat ← Worlds.action "Eat" ["Cake"] [("Have", ["Cake"])] [] [("Eaten", ["Cake"])]
    [("Have", ["Cake"])] []
  Problem.make? (.str "have_bread") (← Worlds.facts [("Have", ["Cake"])]) [.inl eat]
    (← Worlds.goal [("Have", ["Bread"])])

theorem exists_notFound {made : Except Error Problem} {text : String}
    (hproper : made.toOption.map isProper = some true)
    (hreason : ((made.toOption.bind fun p => (p.plan request (StrategyName.astar.strategy p
      [])).answer.toOption.bind PlanResult.reason?).map NoPlanReason.text) = some text) :
    ∃ p reason nodesExpanded within, made = .ok p ∧ p.Proper ∧
      (p.plan request (StrategyName.astar.strategy p [])).answer
        = .ok (.notFound reason nodesExpanded within) ∧ reason.text = text := by
  obtain ⟨p, rfl, hp⟩ := exists_ok_of_isProper hproper
  obtain ⟨reason, nodesExpanded, within, hanswer, htext⟩ := PlanResult.exists_of_reason?_eq hreason
  exact ⟨p, reason, nodesExpanded, within, rfl, hp, hanswer, htext⟩

/-- One action does not give a cake that has been eaten, and no number of them gives bread. -/
theorem reaches_ne_of_notFound_haveCake :
    (∃ p reason nodesExpanded within, Worlds.haveCake = .ok p ∧
      p.Proper ∧ Offered p (StrategyName.astar.strategy p []) ∧
      (p.plan ⟨1, 100, .ok false, false⟩ (StrategyName.astar.strategy p [])).answer
        = .ok (.notFound reason nodesExpanded within) ∧
      reason.text = "no plan found within bound 1" ∧
      ∀ as t, p.Leads p.initialState as t → as.length ≤ 1 → p.reaches t ≠ .ok true) ∧
    ∃ p reason nodesExpanded within, haveBread = .ok p ∧
      p.Proper ∧ Offered p (StrategyName.astar.strategy p []) ∧
      (p.plan ⟨1, 100, .ok false, false⟩ (StrategyName.astar.strategy p [])).answer
        = .ok (.notFound reason nodesExpanded within) ∧
      reason.text = "goal unreachable" ∧
      ∀ as t, p.Leads p.initialState as t → p.reaches t ≠ .ok true := by
  constructor
  · have hreason : ((Worlds.haveCake.toOption.bind fun p => (p.plan ⟨1, 100, .ok false, false⟩
        (StrategyName.astar.strategy p [])).answer.toOption.bind PlanResult.reason?).map
          NoPlanReason.text) = some "no plan found within bound 1" := by
      decide +kernel
    obtain ⟨p, reason, nodesExpanded, within, hcake, hproper, hanswer, htext⟩ :=
      exists_notFound (by decide +kernel) hreason
    have hoffered : Offered p (StrategyName.astar.strategy p []) := .named .astar []
    exact ⟨p, reason, nodesExpanded, within, hcake, hproper, hoffered, hanswer, htext,
      (hproper.reaches_ne_of_notFound rfl hoffered hanswer).1 (htext.trans (by decide))⟩
  · have hreason : ((haveBread.toOption.bind fun p => (p.plan ⟨1, 100, .ok false, false⟩
        (StrategyName.astar.strategy p [])).answer.toOption.bind PlanResult.reason?).map
          NoPlanReason.text) = some "goal unreachable" := by
      decide +kernel
    obtain ⟨p, reason, nodesExpanded, within, hbread, hproper, hanswer, htext⟩ :=
      exists_notFound (by decide +kernel) hreason
    have hoffered : Offered p (StrategyName.astar.strategy p []) := .named .astar []
    exact ⟨p, reason, nodesExpanded, within, hbread, hproper, hoffered, hanswer, htext,
      (hproper.reaches_ne_of_notFound rfl hoffered hanswer).2 htext⟩

/-- **No path to the goal is shorter than a plan that is found with the oldest node taken
first.** -/
theorem Proper.isLeast_length (hp : p.Proper) (hbound : request.bound = .whole b)
    {lines : List String} {plan : Plan}
    (h : (p.plan request (StrategyName.breadthFirst.strategy p lines)).answer = .ok (.found plan)) :
    IsLeast {n | ∃ as t, as.length = n ∧ p.Leads p.initialState as t ∧ p.reaches t = .ok true}
      plan.actions.length := by
  obtain ⟨last, memory, node, rest, memory', hsteps, htakes, hreaches, hactions, -⟩ :=
    hp.exists_of_plan_found hbound h
  obtain ⟨hsound, -⟩ := Search.sound_of_continues hsteps
  have hcovered := Search.covered_of_continues hp (Search.admissible_of_keepAll rfl) trivial hsteps
  have hordered : Search.Ordered last.frontier :=
    Search.invariant_of_continues (fun search _ => Search.Ordered search.frontier)
      (fun h hstep => h.continues hstep) hsteps (Search.ordered_start _)
  rw [hactions]
  refine ⟨⟨node.actions, node.state, rfl, hsound.leads node htakes.mem, hreaches⟩, ?_⟩
  rintro n ⟨as, t, rfl, hleads, ht⟩
  by_contra hshorter
  have hshorter : as.length < node.depth := not_le.mp hshorter
  have hdepth := hsound.depth_le node htakes.mem
  -- every node that waits is at least as deep as the one that was taken
  have hfrontier : ∀ n ∈ last.frontier, node.depth ≤ n.depth := by
    intro n hn
    exact hordered.depth_le htakes hn
  exact hcovered.reaches_ne node.depth hfrontier (by omega) hleads hcovered.start (by omega) ht

/-- Two actions are needed. -/
theorem isLeast_length_haveCake : ∃ p plan, Worlds.haveCake = .ok p ∧ p.Proper ∧
    (p.plan ⟨3, 100, .ok false, false⟩ (StrategyName.breadthFirst.strategy p [])).answer
      = .ok (.found plan) ∧
    IsLeast {n | ∃ as t, as.length = n ∧ p.Leads p.initialState as t ∧ p.reaches t = .ok true}
      plan.actions.length := by
  obtain ⟨p, hcake, hproper⟩ := exists_haveCake
  have hfound : ((Worlds.haveCake.toOption.bind fun p => (p.plan ⟨3, 100, .ok false, false⟩
      (StrategyName.breadthFirst.strategy p [])).answer.toOption.bind
      PlanResult.plan?)).isSome := by
    decide +kernel
  rw [hcake] at hfound
  obtain ⟨plan, hplan⟩ := PlanResult.exists_of_plan?_isSome hfound
  exact ⟨p, plan, hcake, hproper, hplan, hproper.isLeast_length rfl hplan⟩

end Problem

end HornPlan
