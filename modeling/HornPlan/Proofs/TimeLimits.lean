import HornPlan.Proofs.Handovers

/-!
# Searches that run out of time

A planning that runs out of time marks its search as halted, as a search that has come to an end is
marked, and no planning continues a search that has halted.  Asked again, without a limit on the
time, the planner gives the same answer and takes no step, while a planning that is never
interrupted gives another answer (`Proper.planTimed_halts`).

The mark is all that stands in the way.  Wherever the clock stops a run, the search is that of the
steps before (`runFor_ends`), and with the mark taken off (`unhalt`) it is continued as if it had
never been stopped.  A limit on the nodes leaves no mark, which is why `Proper.plan_resumed` speaks
of the search as it is.
-/

namespace HornPlan

namespace Search

variable {p : Problem} {M : Type} {policy : Policy M} {search last final : Search}
  {memory memory' : M} {bound : Option Count} {b : Nat} {verbose : Bool} {limit k : Int}
  {error : Option Error}

/-! ## Counted steps -/

/-- A step is counted, or it fails before it is. -/
theorem advance_step (hk : search.step = .whole k) :
    (search.advance p policy bound verbose memory).search.step = .whole k ∨
      (search.advance p policy bound verbose memory).search.step = .whole (k + 1) := by
  have hspec := advance_spec (rfl : search.advance p policy bound verbose memory = _)
  rcases hspec.2 with hnext | ⟨hsame, -⟩
  · rw [hk, Count.next] at hnext
    exact Or.inr (Except.ok.inj hnext).symm
  · exact Or.inl (hsame.trans hk)

theorem Reachable.exists_step (h : Reachable p search) : ∃ n : Nat, search.step = .whole n := by
  induction h with
  | start => exact ⟨0, rfl⟩
  | advance policy bound verbose memory _ ih =>
      obtain ⟨n, hn⟩ := ih
      rcases advance_step hn with hsame | hcounted
      · exact ⟨n, hsame⟩
      · exact ⟨n + 1, hcounted⟩
  | halt _ _ ih => exact ih

/-! ## Points on the way of a run -/

theorem Goes.running (h : Goes p policy (some (.whole b)) verbose limit search memory last memory')
    (hrunning : search.Running) : last.Running :=
  h.invariant (fun search _ => search.Running)
    (fun hrunning hstep herror hhalted =>
    hrunning.continues (continues_of_advance hstep herror hhalted)) hrunning

theorem Goes.reachable (h : Goes p policy bound verbose limit search memory last memory')
    (hreachable : Reachable p search) : Reachable p last :=
  h.invariant (fun search _ => Reachable p search)
    (fun hreachable hstep _ _ => hstep ▸ hreachable.advance policy bound verbose _) hreachable

theorem Goes.keeps (h : Goes p policy bound verbose limit search memory last memory')
    (hk : search.step = .whole k) :
    last.initialState = search.initialState ∧ ∃ j, last.step = .whole j ∧ k ≤ j :=
  h.invariant
    (fun next _ => next.initialState = search.initialState ∧ ∃ j, next.step = .whole j ∧ k ≤ j)
    (fun ⟨hinitial, j, hj, hle⟩ hstep _ _ => by
      refine ⟨(advance_spec hstep).1.trans hinitial, ?_⟩
      rcases hstep ▸ advance_step hj with hsame | hcounted
      · exact ⟨j, hsame, hle⟩
      · exact ⟨j + 1, hcounted, by omega⟩)
    ⟨rfl, k, hk, le_rfl⟩

theorem Goes.valid {Valid : M → Prop}
    (h : Goes p policy bound verbose limit search memory last memory') (hp : p.Proper)
    (hforgetful : Forgetful policy Valid) (hreachable : Reachable p search)
    (hmemory : Valid memory) :
    Valid memory' := by
  refine (h.invariant (fun search memory => Reachable p search ∧ Valid memory) ?_
    ⟨hreachable, hmemory⟩).2
  rintro search memory outcome ⟨hreachable, hmemory⟩ hstep - -
  have hagrees : Agrees _ outcome (search.advance p policy bound verbose memory) :=
    (hreachable.storable hp).agrees hp hforgetful hmemory hmemory hstep
  exact ⟨hstep ▸ hreachable.advance policy bound verbose memory, hagrees.memory.1⟩

/-! ## The mark of halting -/

/-- A search with the mark of halting taken off. -/
def unhalt (search : Search) : Search :=
  { search with haltFlag := .plain false, haltReason := .unknown }

theorem Running.unhalt_halt (h : search.Running) (cause : HaltCause) :
    (search.halt cause).unhalt = search := by
  obtain ⟨initialState, frontier, seen, history, step, haltFlag, haltReason, solution⟩ := search
  obtain ⟨rfl, rfl, -⟩ := h
  rfl

theorem Finds.haltReason (h : Finds p policy search memory final) :
    final.haltReason = .cause .goalReached := by
  cases h
  rfl

/-- Only the clock says that the time is up. -/
theorem RunsTo.haltReason_ne
    (h : RunsTo p policy (some (.whole b)) verbose limit search memory final error)
    (herror : error = none) (hrunning : search.Running) :
    final.haltReason ≠ .cause .timeLimitExceeded := by
  induction h with
  | rests =>
      unfold atRest
      split
      · nofun
      · rw [hrunning.haltReason]
        nofun
  | failed => cases herror
  | step hmoves hstep hnone hrest ih =>
      rcases advance_cases hstep hnone with ⟨hempty, -⟩ | hfinds | hcontinues
      · exact absurd (Or.inr (Or.inl hempty)) hmoves
      · obtain ⟨rfl, -⟩ := hrest.of_halted hfinds.halted
        rw [hfinds.haltReason]
        nofun
      · exact ih herror (hrunning.continues hcontinues)

theorem haltReason_of_failure {bound maxNodes : Count}
    (h : search.failure bound maxNodes = .halted (.cause .timeLimitExceeded)) :
    search.haltReason = .cause .timeLimitExceeded := by
  unfold failure at h
  split at h
  · cases h
  · assumption
  · split_ifs at h
    exact NoPlanReason.halted.inj h

end Search

namespace PlanResult

/-- The time was up. -/
def timedOut : PlanResult → Bool
  | notFound (.halted (.cause .timeLimitExceeded)) _ _ => true
  | _ => false

theorem exists_of_timedOut {answer : Except Error PlanResult}
    (h : answer.toOption.map timedOut = some true) :
    ∃ nodesExpanded within,
      answer = .ok (.notFound (.halted (.cause .timeLimitExceeded)) nodesExpanded within) := by
  rcases answer with _ | result
  · cases h
  · have hlate : result.timedOut = true := Option.some.inj h
    unfold timedOut at hlate
    split at hlate
    · exact ⟨_, _, rfl⟩
    · cases hlate

end PlanResult

namespace Problem

variable {p : Problem} {strategy : Strategy} {name : StrategyName} {lines : List String}
  {search last : Search} {b : Nat} {bound limit : Int} {late : Nat → Bool}
  {verbose verbose₁ verbose₂ verbose₃ : Bool} {nodesExpanded : Count} {within : Option Count}
  {first second whole resumed : Planning}

/-! ## Plannings against the clock -/

/-- The relaxed graph does not rule out the goal at a point on the way. -/
theorem unreachable?_of_step {k j : Int} (h : p.unreachable? search = .ok none)
    (hinitial : last.initialState = search.initialState) (hk : search.step = .whole k)
    (hj : last.step = .whole j) (hnonneg : 0 ≤ k) (hle : k ≤ j) :
    p.unreachable? last = .ok none := by
  unfold unreachable? at h ⊢
  split
  · rfl
  · rename_i goals hgoals
    split
    · rfl
    · rename_i hzero
      rw [hgoals] at h
      have hfirst : search.step.isZero = true := by
        rw [hj] at hzero
        rw [hk]
        simp only [Count.isZero, Bool.not_eq_true, Bool.not_eq_false', beq_iff_eq] at hzero ⊢
        omega
      rw [hinitial]
      simpa [hfirst] using h

/-- A planning whose time is up: the search is that of a point on the way, with the mark of
halting. -/
theorem exists_goes_of_timeLimit (hreachable : Search.Reachable p search)
    (hrunning : search.Running)
    (hfirst : p.planTimed ⟨.whole bound, .whole limit, fun n => .ok (late n),
      verbose⟩ strategy search = first)
    (hlate : first.answer =
      .ok (.notFound (.halted (.cause .timeLimitExceeded)) nodesExpanded within)) :
    ∃ b : Nat, bound = b ∧ p.unreachable? search = .ok none ∧
      first.search.result (.whole bound) (.whole limit) = first.answer ∧
      ∃ last memory, first.search = last.halt .timeLimitExceeded ∧ p.unreachable? last = .ok none ∧
        Search.Goes p strategy.policy (some (.whole b)) verbose limit search strategy.memory last
        memory := by
  subst hfirst
  obtain ⟨k, hk⟩ := hreachable.exists_step
  obtain ⟨hbound, ⟨hcut, -⟩ | ⟨hunreachable, run, hrun, herror, hsearch, hresult⟩⟩ :=
    planTimed_cases hlate
  · cases hcut
  have hnonneg : 0 ≤ bound := by
    by_contra hnegative
    cases (requireBound_of_negative (not_le.mp hnegative)).symm.trans hbound
  obtain ⟨b, rfl⟩ := Int.eq_ofNat_of_zero_le hnonneg
  rw [hsearch]
  refine ⟨b, rfl, hunreachable, hresult.trans hlate.symm, ?_⟩
  have hrounds : (limit - k).toNat ≤ search.step.roundsBelow (.whole limit) := by
    rw [hk]
    exact le_rfl
  -- a run that comes to its end does not say that its time was up
  rcases Search.runFor_ends late hk hrounds hrun with hruns | ⟨last, memory, _, -, hgoes, hhalts, -⟩
  · obtain ⟨-, hfailure⟩ := Search.eq_of_result_eq_notFound hresult
    exact absurd (Search.haltReason_of_failure hfailure.symm) (hruns.haltReason_ne herror hrunning)
  · obtain ⟨hinitial, j, hj, hle⟩ := hgoes.keeps hk
    exact ⟨last, memory, hhalts,
      unreachable?_of_step hunreachable hinitial hk hj (Int.natCast_nonneg k) hle, hgoes⟩

/-- **A search that ran out of time is not continued**: the answer stays, and so does the search. -/
theorem answer_of_timeLimit (hreachable : Search.Reachable p search) (hrunning : search.Running)
    (hfirst : p.planTimed ⟨.whole bound, .whole limit, fun n => .ok (late n),
      verbose⟩ strategy search = first)
    (hlate : first.answer =
      .ok (.notFound (.halted (.cause .timeLimitExceeded)) nodesExpanded within))
    (hsecond : p.planWith ⟨.whole bound, .whole limit, .ok false, verbose₁⟩ strategy first.search =
      second) :
    second.answer = first.answer ∧ second.search = first.search := by
  obtain ⟨b, rfl, -, hresult, last, memory, hhalts, hunreachable, hgoes⟩ :=
    exists_goes_of_timeLimit hreachable hrunning hfirst hlate
  obtain ⟨j, hj⟩ := (hgoes.reachable hreachable).exists_step
  rw [hhalts] at hsecond hresult ⊢
  have hmarked : p.unreachable? (last.halt .timeLimitExceeded) = .ok none := hunreachable
  obtain ⟨error, hruns, hanswer, -⟩ := exists_runsTo hmarked hj hsecond
  obtain ⟨hsearch, rfl⟩ := hruns.of_halted rfl
  rw [hsearch] at hanswer
  exact ⟨hanswer.trans hresult, hsearch⟩

theorem answer_ne_timeLimit (hrunning : search.Running) {k : Int} (hk : search.step = .whole k)
    (hunreachable : p.unreachable? search = .ok none)
    (hwhole : p.planWith ⟨.whole b, .whole limit, .ok false, verbose⟩ strategy search = whole) :
    whole.answer ≠ .ok (.notFound (.halted (.cause .timeLimitExceeded)) nodesExpanded within) := by
  intro hlate
  obtain ⟨error, hruns, hanswer, -⟩ := exists_runsTo hunreachable hk hwhole
  cases error with
  | some e => cases hanswer.symm.trans hlate
  | none =>
      obtain ⟨-, hfailure⟩ := Search.eq_of_result_eq_notFound (hanswer.symm.trans hlate)
      exact hruns.haltReason_ne rfl hrunning (Search.haltReason_of_failure hfailure.symm)

/-- **From a point on its way a search is continued as from its start.** -/
theorem Proper.planWith_of_goes (hp : p.Proper) (hname : name ≠ .interactive)
    (hreachable : Search.Reachable p search) {memory : (name.strategy p lines).Memory}
    (hgoes : Search.Goes p (name.strategy p lines).policy (some (.whole b)) verbose limit search
      (name.strategy p lines).memory last memory)
    (hunreachable : p.unreachable? search = .ok none)
    (hunreachable' : p.unreachable? last = .ok none)
    (hwhole : p.planWith ⟨.whole b, .whole limit, .ok false, verbose₁⟩
      (name.strategy p lines) search = whole)
    (hresumed : p.planWith ⟨.whole b, .whole limit, .ok false, verbose₂⟩
      (name.strategy p lines) last = resumed) :
    resumed.answer = whole.answer ∧ resumed.search = whole.search := by
  have hlast : Search.Reachable p last := hgoes.reachable hreachable
  obtain ⟨Valid, hmemory, hforgetful⟩ := StrategyName.exists_forgetful hname p lines
  have hvalid : Valid memory := hgoes.valid hp hforgetful hreachable hmemory
  obtain ⟨k, hk⟩ := hreachable.regular.step
  obtain ⟨j, hj⟩ := hlast.regular.step
  obtain ⟨error, hruns, hanswer, -⟩ := exists_runsTo hunreachable hk hwhole
  obtain ⟨error', hrest, hanswer', -⟩ := exists_runsTo hunreachable' hj hresumed
  -- the continued run starts with an empty memory, and the one on its way with what it has
  -- remembered
  have hrest : Search.RunsTo p _ _ verbose limit last memory resumed.search error' :=
    hrest.of_forgetful hp hforgetful (hlast.storable hp) hmemory hvalid
  obtain ⟨hsearch, rfl⟩ :=
    (hgoes.runsTo hrest).unique_of_forgetful hruns hp hforgetful (hreachable.storable hp)
    hmemory hmemory
  rw [hanswer, hanswer', hsearch]
  exact ⟨rfl, rfl⟩

/-- **A planning that runs out of time halts its search for good.**  The planner continues a search
that runs, by any strategy by its name but the interactive one, and runs out of time before some
step.  When it continues the search that is left, with the same bound and the same limit on the
nodes but none on the time, it gives the same answer and takes no step, though one planning without
a limit on the time has another answer.  With the mark of halting taken off, the search is continued
as if the time had never been up. -/
theorem Proper.planTimed_halts (hp : p.Proper) (hname : name ≠ .interactive)
    (hreachable : Search.Reachable p search) (hrunning : search.Running)
    (hfirst : p.planTimed ⟨.whole bound, .whole limit, fun n => .ok (late n), verbose⟩
      (name.strategy p lines) search = first)
    (hlate : first.answer =
      .ok (.notFound (.halted (.cause .timeLimitExceeded)) nodesExpanded within))
    (hsecond : p.planWith ⟨.whole bound, .whole limit, .ok false, verbose₁⟩
      (name.strategy p lines) first.search = second)
    (hwhole : p.planWith ⟨.whole bound, .whole limit, .ok false, verbose₂⟩
      (name.strategy p lines) search = whole)
    (hresumed : p.planWith ⟨.whole bound, .whole limit, .ok false, verbose₃⟩ (name.strategy p lines)
      first.search.unhalt = resumed) :
    (second.answer = first.answer ∧ second.search = first.search) ∧ second.answer ≠ whole.answer ∧
      resumed.answer = whole.answer ∧ resumed.search = whole.search := by
  obtain ⟨k, hk⟩ := hreachable.exists_step
  have hsame := answer_of_timeLimit hreachable hrunning hfirst hlate hsecond
  obtain ⟨b, rfl, hunreachable, -, last, memory, hhalts, hunreachable', hgoes⟩ :=
    exists_goes_of_timeLimit hreachable hrunning hfirst hlate
  rw [hhalts, (hgoes.running hrunning).unhalt_halt] at hresumed
  refine ⟨hsame, fun heq => ?_,
    hp.planWith_of_goes hname hreachable hgoes hunreachable hunreachable' hwhole hresumed⟩
  exact answer_ne_timeLimit hrunning hk hunreachable hwhole (heq.symm.trans (hsame.1.trans hlate))

/-- The search for a cake that has been eaten runs out of time after its first step, and would have
found a plan. -/
theorem exists_timedOut : ∃ p first nodesExpanded within plan, Worlds.haveCake = .ok p ∧ p.Proper ∧
    p.planTimed ⟨.whole 3, .whole 100, fun n => .ok (n == 1), false⟩
      (StrategyName.breadthFirst.strategy p []) (.start p.initialState) = first ∧
    first.answer = .ok (.notFound (.halted (.cause .timeLimitExceeded)) nodesExpanded within) ∧
    (p.planWith ⟨.whole 3, .whole 100, .ok false, false⟩ (StrategyName.breadthFirst.strategy p [])
      (.start p.initialState)).answer = .ok (.found plan) := by
  obtain ⟨p, hcake, hproper⟩ := exists_haveCake
  have htimedOut : (Worlds.haveCake.toOption.bind fun p => (p.planTimed
      ⟨.whole 3, .whole 100, fun n => .ok (n == 1), false⟩ (StrategyName.breadthFirst.strategy p [])
      (.start p.initialState)).answer.toOption.map PlanResult.timedOut) = some true := by
    decide +kernel
  have hfound :
      (Worlds.haveCake.toOption.bind fun p => (p.planWith ⟨.whole 3, .whole 100, .ok false, false⟩
      (StrategyName.breadthFirst.strategy p []) (.start p.initialState)).answer.toOption.bind
        PlanResult.plan?).isSome := by
    decide +kernel
  rw [hcake] at htimedOut hfound
  obtain ⟨nodesExpanded, within, hlate⟩ := PlanResult.exists_of_timedOut htimedOut
  obtain ⟨plan, hplan⟩ := PlanResult.exists_of_plan?_isSome hfound
  exact ⟨p, _, nodesExpanded, within, plan, hcake, hproper, rfl, hlate, hplan⟩

/-- Without a limit on the time the answer stays that the time is up, until the mark is taken
off. -/
theorem planTimed_halts_haveCake :
    ∃ p first nodesExpanded within plan, Worlds.haveCake = .ok p ∧ p.Proper ∧
    StrategyName.breadthFirst ≠ .interactive ∧ Search.Reachable p (.start p.initialState) ∧
    (Search.start p.initialState).Running ∧
    p.planTimed ⟨.whole 3, .whole 100, fun n => .ok (n == 1), false⟩
      (StrategyName.breadthFirst.strategy p []) (.start p.initialState) = first ∧
    first.answer = .ok (.notFound (.halted (.cause .timeLimitExceeded)) nodesExpanded within) ∧
    (p.planWith ⟨.whole 3, .whole 100, .ok false, false⟩ (StrategyName.breadthFirst.strategy p [])
      first.search).answer = first.answer ∧
    (p.planWith ⟨.whole 3, .whole 100, .ok false, false⟩ (StrategyName.breadthFirst.strategy p [])
      first.search.unhalt).answer = .ok (.found plan) := by
  obtain ⟨p, first, nodesExpanded, within, plan, hcake, hproper, hfirst, hlate, hplan⟩ :=
    exists_timedOut
  have hname : StrategyName.breadthFirst ≠ .interactive := nofun
  have hreachable : Search.Reachable p (.start p.initialState) := .start hproper.initialState
  have hrunning := Search.running_start p.initialState
  have hsecond :
      p.planWith ⟨.whole 3, .whole 100, .ok false, false⟩ (StrategyName.breadthFirst.strategy p [])
      first.search = _ := rfl
  obtain ⟨⟨hsame, -⟩, -, hresumed, -⟩ :=
    hproper.planTimed_halts hname hreachable hrunning hfirst hlate hsecond rfl rfl
  exact ⟨p, first, nodesExpanded, within, plan, hcake, hproper, hname, hreachable, hrunning, hfirst,
    hlate, hsame, hresumed.trans hplan⟩

/-- Not every search that ran out of time is continued as if it had not. -/
theorem not_forall_planTimed_resumed : ¬∀ (p : Problem) (name : StrategyName) (bound limit : Int)
    (late : Nat → Bool) (first : Planning) (nodesExpanded : Count) (within : Option Count),
    p.Proper → name ≠ .interactive →
    p.planTimed ⟨.whole bound, .whole limit, fun n => .ok (late n), false⟩ (name.strategy p [])
      (.start p.initialState) = first →
    first.answer = .ok (.notFound (.halted (.cause .timeLimitExceeded)) nodesExpanded within) →
    (p.planWith ⟨.whole bound, .whole limit, .ok false, false⟩
      (name.strategy p []) first.search).answer
      = (p.plan ⟨.whole bound, .whole limit, .ok false, false⟩ (name.strategy p [])).answer := by
  intro h
  obtain ⟨p, first, nodesExpanded, within, plan, -, hproper, hfirst, hlate, hplan⟩ :=
    exists_timedOut
  have hreachable : Search.Reachable p (.start p.initialState) := .start hproper.initialState
  obtain ⟨hsame, -⟩ := answer_of_timeLimit hreachable (Search.running_start _) hfirst hlate rfl
  have hresumed :=
    h p .breadthFirst 3 100 (· == 1) first nodesExpanded within hproper nofun hfirst hlate
  cases hlate.symm.trans (hsame.symm.trans (hresumed.trans hplan))

end Problem

end HornPlan
