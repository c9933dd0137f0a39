import HornPlan.Proofs.CompoundTerms
import HornPlan.Proofs.Resumption

/-!
# Searches that are handed over to another strategy

A search that has stopped at a limit on the nodes can be continued with another strategy.  The nodes
that wait are then those which the first strategy has kept, while they are taken in the order of the
second.

The oldest and the newest node can be taken from any frontier.  A\* adds the depth of every node to
its estimate, and only A\* discards the nodes that have none.  So where no grounding fails, the one
thing that can go wrong is that A\* takes over from a strategy which has kept a node from which the
goal is out of reach (`Stumbles`): the planning then fails with its first step, and in all other
cases it answers (`Proper.handed_over`).
-/

namespace HornPlan

namespace Search

variable {p : Problem} {M N : Type} {policy : Policy M} {Valid : M → Prop}
  {Fit : State → Prop} {b : Nat} {search last final : Search} {memory : M}

/-! ## Searches that have stopped at a limit -/

theorem Reachable.regular (h : Reachable p search) : search.Regular := by
  induction h with
  | start => exact regular_start _
  | advance _ _ _ _ _ ih => exact ih.advance
  | halt _ _ ih => exact ⟨ih.step, ih.history⟩

/-- Only of a search that has not halted it is said that its limit on the nodes was hit. -/
theorem of_failure_eq_nodeLimit {bound maxNodes limit : Count}
    (h : search.failure bound maxNodes = .nodeLimit limit) :
    search.halted = false ∧ limit = maxNodes := by
  unfold failure at h
  split at h
  · cases h
  · cases h
  · split_ifs at h with hhalted
    exact ⟨Bool.eq_false_iff.mpr hhalted, (NoPlanReason.nodeLimit.inj h).symm⟩

/-- A run that does not halt the search stops where nodes wait. -/
theorem Ends.eq_of_halted_eq_false (h : Ends p policy last memory final)
    (hrunning : final.halted = false) :
    final = last ∧ last.frontier ≠ [] := by
  cases h with
  | limit hnonempty => exact ⟨rfl, hnonempty⟩
  | stopped => cases hrunning
  | exhausted => cases hrunning
  | found hfinds => cases hfinds.halted.symm.trans hrunning

theorem Poised.handOver (h : Poised p Valid Fit b search memory) {Valid' : N → Prop}
    {Fit' : State → Prop} {memory' : N} (hmemory : Valid' memory')
    (hfit : ∀ n ∈ search.frontier, Fit' n.state) :
    Poised p Valid' Fit' b search memory' :=
  ⟨h.sound, h.running, h.tidy, hmemory, hfit⟩

theorem advance_error_of_choose {bound : Option Count} {verbose : Bool} {e : Error}
    (hnonempty : search.frontier ≠ [])
    (h : (policy.choose memory search.frontier).answer = .error e) :
    (search.advance p policy bound verbose memory).error = some e := by
  rw [advance, List.isEmpty_eq_false_iff.mpr hnonempty, if_neg Bool.false_ne_true]
  dsimp only
  rw [h]

end Search

/-! ## Nodes without an estimate -/

section

variable {p : Problem} {known : Estimates} {nodes : List Node} {node : Node}

/-- Where all estimates can be computed and a node has none, A\* cannot choose. -/
theorem leastCost_eq_unreachableNode (h : known.Valid p) (hproper : ∀ n ∈ nodes, n.state.Proper)
    (hdecided : ∀ n ∈ nodes, ∃ estimate, p.estimate n.state = .ok estimate) (hnode : node ∈ nodes)
    (hnone : p.estimate node.state = .ok none) (place : Nat) (best : Option (Nat × Nat)) :
    (leastCost p place best known nodes).answer = .error .unreachableNode := by
  -- induction on the nodes: the first one has no estimate, or it is passed over on the way to the
  -- one without
  induction nodes generalizing known place best with
  | nil => exact absurd hnode List.not_mem_nil
  | cons first rest ih =>
      obtain ⟨hfirst, hproper⟩ := List.forall_mem_cons.mp hproper
      obtain ⟨⟨estimate, hestimate⟩, hdecided⟩ := List.forall_mem_cons.mp hdecided
      have hget := h.get_eq hfirst
      have hvalid := h.get first.state
      rw [hestimate] at hget
      rcases heq : Estimates.get p known first.state with ⟨answer, next⟩
      rw [heq] at hget hvalid
      obtain rfl : answer = .ok estimate := hget
      cases estimate with
      | none => rw [leastCost, heq]
      | some estimate =>
          rw [leastCost_cons heq]
          rcases List.mem_cons.mp hnode with rfl | hrest
          · cases hestimate.symm.trans hnone
          · exact ih hvalid hproper hdecided hrest _ _

end

/-- A\* is to take a step, and a node waits from which the goal is out of reach. -/
structure Search.Stumbles (p : Problem) (limit : Int) (search : Search) : Prop where
  below : ∃ k : Int, search.step = .whole k ∧ k < limit
  unreachable : ∃ n ∈ search.frontier, p.estimate n.state = .ok none

namespace Problem

variable {p : Problem} {goals : List Atom} {name name' : StrategyName} {lines lines' : List String}
  {b : Nat} {bound bound' limit limit' : Int} {outOfTime verbose verbose' : Bool} {search : Search}

/-! ## Handing over -/

/-- A search that a planning under a bound has left behind at a limit on the nodes: nodes wait that
are fit for its strategy, and the search is poised, also under any larger bound. -/
structure HandedOver (p : Problem) (Fit : State → Prop) (b : Nat) (search : Search) : Prop where
  waiting : search.frontier ≠ []
  regular : search.Regular
  reachable : p.unreachable? search = .ok none
  poised : ∀ c, b ≤ c → Search.Poised p (fun _ : Unit => True) Fit c search ()

theorem eq_maxNodes_of_nodeLimit {request : Request} {strategy : Strategy}
    {reached nodesExpanded : Count} {within : Option Count}
    (h : (p.planWith request strategy search).answer =
      .ok (.notFound (.nodeLimit reached) nodesExpanded within)) :
    reached = request.maxNodes := by
  rcases planWith_cases h with ⟨hcut, -⟩ | ⟨run, -, -, -, hresult⟩
  · cases hcut
  · obtain ⟨-, hfailure⟩ := Search.eq_of_result_eq_notFound hresult
    exact (Search.of_failure_eq_nodeLimit hfailure.symm).2

theorem Proper.handedOver_of_run (hp : p.Proper) {strategy : Strategy}
    {Valid : strategy.Memory → Prop} {Fit : State → Prop}
    (hpolicy : Search.Admissible p strategy.policy Valid)
    (hreliable : Search.Reliable p strategy.policy Valid Fit) (hmemory : Valid strategy.memory)
    (hfit : Fit p.initialState) (hunreachable : p.unreachable? (.start p.initialState) = .ok none)
    {limits : Limits} {run : RunOutcome strategy.Memory}
    (hrun : (Search.start p.initialState).run p strategy.policy (some (.whole b)) verbose limits
      strategy.memory = run)
    (herror : run.error = none) (hrunning : run.search.halted = false) :
    p.HandedOver Fit b run.search := by
  obtain ⟨last, memory, hsteps, hends⟩ := Search.runFor_spec (Search.running_start _) hrun herror
  obtain ⟨heq, hnonempty⟩ := hends.eq_of_halted_eq_false hrunning
  have hstart : Search.Reachable p (.start p.initialState) := .start hp.initialState
  have hregular : run.search.Regular := hrun ▸ hstart.runFor.regular
  rw [heq] at hregular ⊢
  have hpoised (c : Nat) (hle : b ≤ c) : Search.Poised p Valid Fit c last memory :=
    Search.invariant_of_continues (Search.Poised p Valid Fit c)
      (fun h hstep => h.continues_of_le hp hpolicy hreliable hle hstep) hsteps
      (Search.poised_start hp hmemory hfit)
  have hinitial : last.initialState = p.initialState := (hpoised b le_rfl).sound.initialState
  exact ⟨hnonempty, hregular, unreachable?_eq_none hunreachable hinitial,
    fun c hle => (hpoised c hle).handOver trivial (hpoised c hle).fit⟩

/-- **A planning that stops at a limit on the nodes hands its search over.** -/
theorem Proper.handedOver_of_plan (hp : p.Proper) (hfails : ∀ e, ¬p.FailsFrom p.initialState e)
    (hname : name ≠ .interactive) {first : Planning} {nodesExpanded : Count} {within : Option Count}
    (hfirst : p.plan ⟨.whole bound, .whole limit, .ok outOfTime, verbose⟩
      (name.strategy p lines) = first)
    (hlimit : first.answer = .ok (.notFound (.nodeLimit (.whole limit)) nodesExpanded within)) :
    ∃ b, p.HandedOver (name.Fit p) b first.search := by
  subst hfirst
  have hbound : ¬bound < 0 := by
    intro hnegative
    cases (answer_of_negative hnegative).symm.trans hlimit
  obtain ⟨b, rfl⟩ := Int.eq_ofNat_of_zero_le (not_lt.mp hbound)
  rcases hunreachable : p.unreachable? (.start p.initialState) with e | _ | layers
  · exact absurd (hp.failsFrom_of_unreachable? hunreachable) (hfails e)
  · rcases planWith_cases hlimit with ⟨hcut, -⟩ | ⟨run, hrun, herror, hsearch, hresult⟩
    · cases hcut
    · obtain ⟨_, hmemory, hpolicy, hreliable⟩ := hp.exists_reliable hname lines
      obtain ⟨-, hfailure⟩ := Search.eq_of_result_eq_notFound hresult
      have hrunning : run.search.halted = false := (Search.of_failure_eq_nodeLimit hfailure.symm).1
      have hhanded :=
        hp.handedOver_of_run hpolicy hreliable hmemory (hp.fit_initialState hunreachable name)
        hunreachable hrun herror hrunning
      rw [← hsearch] at hhanded
      exact ⟨b, hhanded⟩
  · cases (answer_of_unreachable?_eq_some hunreachable).symm.trans hlimit

/-! ## Taking over -/

section

variable {Fit : State → Prop} {c : Nat}

theorem HandedOver.exists_answer_of_le (h : p.HandedOver Fit b search)
    {strategy : Strategy} {k : Int} (hk : search.step = .whole k) (hle : limit ≤ k) : ∃ result,
      (p.planWith ⟨.whole c, .whole limit, .ok false, verbose⟩ strategy search).answer =
      .ok result := by
  obtain ⟨error, hruns, hanswer, -⟩ := exists_runsTo h.reachable hk rfl
  have hrests : Search.Rests limit search := Or.inr (Or.inr ⟨k, hk, hle⟩)
  obtain ⟨hsearch, rfl⟩ := hruns.unique (.rests hrests)
  rw [hanswer, hsearch, Search.atRest_of_ne_nil h.waiting]
  exact ⟨_, (h.poised b le_rfl).running.result_eq⟩

/-- **A planning that stumbles fails with its first step.** -/
theorem HandedOver.answer_of_stumbles (h : p.HandedOver Fit b search) (hp : p.Proper)
    (hfails : ∀ e, ¬p.FailsFrom p.initialState e) (hstumbles : search.Stumbles p limit) :
    (p.planWith ⟨.whole c, .whole limit, .ok false, verbose⟩
      (StrategyName.astar.strategy p lines) search).answer
      = .error .unreachableNode := by
  obtain ⟨⟨k, hk, hbelow⟩, node, hnode, hnone⟩ := hstumbles
  have hpoised := h.poised b le_rfl
  have hproper : ∀ n ∈ search.frontier, n.state.Proper := fun n hn => hpoised.proper hp hn
  have hdecided : ∀ n ∈ search.frontier, ∃ estimate, p.estimate n.state = .ok estimate := by
    intro n hn
    cases hestimate : p.estimate n.state with
    | ok estimate => exact ⟨estimate, rfl⟩
    | error e =>
        have hfailed := hp.failsFrom_of_estimate (hproper n hn) hestimate
        exact absurd (hfailed.of_explores (hpoised.sound.leads n hn).explores) (hfails e)
  have hchoose : ((Policy.leastCost p).choose ∅ search.frontier).answer = .error .unreachableNode :=
    leastCost_eq_unreachableNode Estimates.valid_empty hproper hdecided hnode hnone 0 none
  have hmoves : ¬Search.Rests limit search := by
    rintro (hhalted | hempty | ⟨j, hj, hle⟩)
    · cases hpoised.running.halted.symm.trans hhalted
    · exact h.waiting hempty
    · obtain rfl := Count.whole.inj (hk.symm.trans hj)
      exact absurd hbelow (not_lt.mpr hle)
  have hfailed : Search.RunsTo p (Policy.leastCost p) (some (.whole c)) verbose limit search ∅ _
      (some .unreachableNode) :=
    .failed hmoves rfl (Search.advance_error_of_choose h.waiting hchoose)
  -- the planner reads off the end of a run, and this one ends with the failed step
  generalize hplanning : p.planWith _ _ search = planning
  obtain ⟨error, hruns, hanswer, -⟩ := exists_runsTo h.reachable hk hplanning
  obtain ⟨-, rfl⟩ := hruns.unique hfailed
  exact hanswer

/-- **A planning that does not stumble answers**, where no grounding fails. -/
theorem HandedOver.exists_answer (h : p.HandedOver Fit b search) (hp : p.Proper)
    (hgoals : p.goal = .conjunction goals) (hfails : ∀ e, ¬p.FailsFrom p.initialState e)
    (hname : name ≠ .interactive) (hsteady : name = .astar → ¬search.Stumbles p limit) : ∃ result,
      (p.planWith ⟨.whole c, .whole limit, .ok false, verbose⟩
      (name.strategy p lines) search).answer
        = .ok result := by
  obtain ⟨k, hk⟩ := h.regular.step
  by_cases hle : limit ≤ k
  · exact h.exists_answer_of_le hk hle
  · -- the nodes that wait are fit for this strategy, too
    have hfit : ∀ n ∈ search.frontier, name.Fit p n.state := by
      intro n hn
      cases name with
      | astar => exact fun hnone => hsteady rfl ⟨⟨k, hk, not_le.mp hle⟩, n, hn, hnone⟩
      | breadthFirst | depthFirst | interactive => trivial
    obtain ⟨_, hmemory, hpolicy, hreliable⟩ := hp.exists_reliable hname lines
    have hpoised := (h.poised (max b c) (le_max_left b c)).handOver hmemory hfit
    rcases hp.continued_answers_or_fails hgoals hpolicy hreliable hpoised (le_max_right b c)
        h.regular h.reachable rfl
      with hanswers | ⟨e, -, hfailed⟩
    · exact hanswers
    · exact absurd hfailed (hfails e)

end

/-- **A search that is handed over is continued, unless A\* stumbles.**  A planning for a
conjunction has stopped at a limit on the nodes, and another one continues its search, under any
bound and limit and with any strategy by its name but the interactive one.  Where no grounding
fails, it refuses a negative bound; it fails where A\* is to choose and a node waits from which the
goal is out of reach; and otherwise it answers.  A\* leaves no such node behind. -/
theorem Proper.handed_over (hp : p.Proper) (hgoals : p.goal = .conjunction goals)
    (hfails : ∀ e, ¬p.FailsFrom p.initialState e) (hname : name ≠ .interactive)
    (hname' : name' ≠ .interactive) {first : Planning} {nodesExpanded : Count}
    {within : Option Count} {answer : Except Error PlanResult}
    (hfirst : p.plan ⟨.whole bound, .whole limit, .ok outOfTime, verbose⟩
      (name.strategy p lines) = first)
    (hlimit : first.answer = .ok (.notFound (.nodeLimit (.whole limit)) nodesExpanded within))
    (hanswer : (p.planWith ⟨.whole bound', .whole limit', .ok false, verbose'⟩
      (name'.strategy p lines') first.search).answer = answer) :
    (bound' < 0 → answer = .error (.negativeBound (.int bound'))) ∧
    (0 ≤ bound' → name' = .astar → first.search.Stumbles p limit' →
      answer = .error .unreachableNode) ∧
    (0 ≤ bound' → (name' = .astar → ¬first.search.Stumbles p limit') →
      ∃ result, answer = .ok result) ∧
    (name = .astar → ¬first.search.Stumbles p limit') := by
  subst hanswer
  obtain ⟨b, hhanded⟩ := hp.handedOver_of_plan hfails hname hfirst hlimit
  refine ⟨fun hnegative => planWith_of_negative hnegative _, ?_, ?_, ?_⟩
  · rintro hnonneg rfl hstumbles
    obtain ⟨c, rfl⟩ := Int.eq_ofNat_of_zero_le hnonneg
    exact hhanded.answer_of_stumbles hp hfails hstumbles
  · intro hnonneg hsteady
    obtain ⟨c, rfl⟩ := Int.eq_ofNat_of_zero_le hnonneg
    exact hhanded.exists_answer hp hgoals hfails hname' hsteady
  · -- the nodes that A* leaves behind have estimates
    rintro rfl ⟨-, n, hn, hnone⟩
    exact (hhanded.poised b le_rfl).fit n hn hnone

/-- A spare tire is put on, unless the car is left overnight and it is gone. -/
def spareOvernight : Except Error Problem := do
  let putOn ← Worlds.action "PutOn" [] [("At", ["Spare", "Trunk"])] [] [("At", ["Spare", "Axle"])]
    [("At", ["Spare", "Trunk"])] []
  let leave ← Worlds.action "LeaveOvernight" [] [] [] [] [("At", ["Spare", "Trunk"])] []
  make? (.str "spare_overnight") (← Worlds.facts [("At", ["Spare", "Trunk"])])
    [.inl putOn, .inl leave]
    (← Worlds.goal [("At", ["Spare", "Axle"])])

theorem exists_spareOvernight : ∃ p goals, spareOvernight = .ok p ∧ p.Proper ∧
    p.goal = .conjunction goals ∧
    ∀ e, ¬p.FailsFrom p.initialState e := by
  obtain ⟨p, hspare, hproper⟩ : ∃ p, spareOvernight = .ok p ∧ p.Proper :=
    exists_ok_of_isProper (by decide +kernel)
  obtain ⟨entailed, hentailed, -⟩ := hproper.kb.exists_closure
  have hgoals : (spareOvernight.toOption.bind goals?).isSome := by decide +kernel
  -- all facts are flat, and what an action adds has parameters for arguments, so no compound term
  -- comes up
  have hflat : (spareOvernight.toOption.bind fun p => p.kb.closure.toOption.map fun entailed =>
      (p.initialState.facts ++ entailed).all Atom.isFlat &&
        p.actions.all fun a => a.adds.all fun f => f.args.all Term.isParameter) = some true := by
    decide +kernel
  rw [hspare] at hgoals hflat
  obtain ⟨goals, hgoals⟩ := Option.isSome_iff_exists.mp hgoals
  change p.kb.closure.toOption.map _ = some true at hflat
  rw [hentailed] at hflat
  obtain ⟨hfacts, hadds⟩ := Bool.and_eq_true_iff.mp (Option.some.inj hflat)
  rw [List.all_append, Bool.and_eq_true] at hfacts
  have hisFlat : p.IsFlat := by
    refine ⟨List.all_eq_true.mp hfacts.1, fun other hother => ?_, fun a ha f hf => ?_⟩
    · obtain rfl := Except.ok.inj (hother.symm.trans hentailed)
      exact List.all_eq_true.mp hfacts.2
    · exact List.all_eq_true.mp (List.all_eq_true.mp (List.all_eq_true.mp hadds a ha) f hf)
  refine ⟨p, goals, hspare, hproper, goals?_eq_some.mp hgoals, fun e hfails => ?_⟩
  obtain ⟨_, -, f, args, -, hcomes⟩ := hfails.exists_compound hproper
  exact hisFlat.not_comesUpon hproper f args hcomes

/-- Breadth first stops after one node, where the tire is put on or gone. -/
theorem exists_stumbles : ∃ p goals first nodesExpanded within, spareOvernight = .ok p ∧ p.Proper ∧
    p.goal = .conjunction goals ∧ (∀ e, ¬p.FailsFrom p.initialState e) ∧
    p.plan ⟨.whole 5, .whole 1, .ok false, false⟩
      (StrategyName.breadthFirst.strategy p []) = first ∧
    first.answer = .ok (.notFound (.nodeLimit (.whole 1)) nodesExpanded within) ∧
    first.search.Stumbles p 100 := by
  obtain ⟨p, goals, hspare, hproper, hgoals, hfails⟩ := exists_spareOvernight
  have hstopped :
      (spareOvernight.toOption.bind fun p => (p.plan ⟨.whole 5, .whole 1, .ok false, false⟩
      (StrategyName.breadthFirst.strategy p [])).answer.toOption.bind
      PlanResult.limit?).isSome := by
    decide +kernel
  have hbelow :
      (spareOvernight.toOption.bind fun p => ((p.plan ⟨.whole 5, .whole 1, .ok false, false⟩
      (StrategyName.breadthFirst.strategy p [])).search.step.below (.whole 100)).toOption) =
      some true := by
    decide +kernel
  have hnone : (spareOvernight.toOption.map fun p => (p.plan ⟨.whole 5, .whole 1, .ok false, false⟩
      (StrategyName.breadthFirst.strategy p [])).search.frontier.any fun n =>
        (p.estimate n.state).toOption = some none) = some true := by
    decide +kernel
  rw [hspare] at hstopped hbelow hnone
  obtain ⟨limit, nodesExpanded, within, hlimit⟩ := PlanResult.exists_of_limit?_isSome hstopped
  obtain rfl := eq_maxNodes_of_nodeLimit hlimit
  have hstart : Search.Reachable p (.start p.initialState) := .start hproper.initialState
  obtain ⟨k, hk⟩ := (reachable_planWith hstart ⟨.whole 5, .whole 1, .ok false, false⟩
    (StrategyName.breadthFirst.strategy p [])).regular.step
  change (Count.below (p.planWith _ _ _).search.step _).toOption = some true at hbelow
  rw [hk, Count.below_whole] at hbelow
  obtain ⟨node, hnode, hestimate⟩ := List.any_eq_true.mp (Option.some.inj hnone)
  exact ⟨p, goals, _, nodesExpanded, within, hspare, hproper, hgoals, hfails, rfl, hlimit,
    ⟨k, hk, of_decide_eq_true (Option.some.inj hbelow)⟩, node, hnode,
    eq_ok_of_toOption (of_decide_eq_true hestimate)⟩

/-- A\* takes over from breadth first, and fails where the tire is gone. -/
theorem handed_over_spareOvernight :
    ∃ p goals first nodesExpanded within, spareOvernight = .ok p ∧ p.Proper ∧
    p.goal = .conjunction goals ∧ (∀ e, ¬p.FailsFrom p.initialState e) ∧
    StrategyName.breadthFirst ≠ .interactive ∧ StrategyName.astar ≠ .interactive ∧
    p.plan ⟨.whole 5, .whole 1, .ok false, false⟩
      (StrategyName.breadthFirst.strategy p []) = first ∧
    first.answer = .ok (.notFound (.nodeLimit (.whole 1)) nodesExpanded within) ∧
    first.search.Stumbles p 100 ∧
    (p.planWith ⟨.whole 5, .whole 100, .ok false, false⟩
      (StrategyName.astar.strategy p []) first.search).answer
      = .error .unreachableNode := by
  obtain ⟨p, goals, first, nodesExpanded, within, hspare, hproper, hgoals, hfails, hfirst, hlimit,
      hstumbles⟩ :=
    exists_stumbles
  have hname : StrategyName.breadthFirst ≠ .interactive := nofun
  have hname' : StrategyName.astar ≠ .interactive := nofun
  obtain ⟨-, hfailed, -⟩ := hproper.handed_over hgoals hfails hname hname' hfirst hlimit rfl
  exact ⟨p, goals, first, nodesExpanded, within, hspare, hproper, hgoals, hfails, hname, hname',
    hfirst, hlimit, hstumbles, hfailed (by decide) rfl hstumbles⟩

/-- Not every search that is handed over is continued. -/
theorem not_forall_handed_over : ¬∀ (p : Problem) (goals : List Atom) (name name' : StrategyName)
    (bound limit bound' limit' : Int) (first : Planning) (nodesExpanded : Count)
    (within : Option Count), p.Proper →
    p.goal = .conjunction goals → (∀ e, ¬p.FailsFrom p.initialState e) → name ≠ .interactive →
    name' ≠ .interactive →
    p.plan ⟨.whole bound, .whole limit, .ok false, false⟩ (name.strategy p []) = first →
    first.answer = .ok (.notFound (.nodeLimit (.whole limit)) nodesExpanded within) → 0 ≤ bound' →
    ∃ result, (p.planWith ⟨.whole bound', .whole limit', .ok false, false⟩ (name'.strategy p [])
      first.search).answer = .ok result := by
  intro h
  obtain ⟨p, goals, first, nodesExpanded, within, -, hproper, hgoals, hfails, hfirst, hlimit,
      hstumbles⟩ :=
    exists_stumbles
  have hname : StrategyName.breadthFirst ≠ .interactive := nofun
  obtain ⟨b, hhanded⟩ := hproper.handedOver_of_plan hfails hname hfirst hlimit
  obtain ⟨result, hresult⟩ :=
    h p goals .breadthFirst .astar 5 1 5 100 first nodesExpanded within hproper hgoals
    hfails hname nofun hfirst hlimit (by decide)
  cases (hhanded.answer_of_stumbles hproper hfails hstumbles).symm.trans hresult

end Problem

end HornPlan
