import HornPlan.Proofs.Enumerations
import HornPlan.Proofs.HonestSearches
import HornPlan.Proofs.Printing
import HornPlan.Proofs.ShortestPlans

/-!
# An interrupted search is resumed as if it had never stopped

A planning that stops at a limit on the nodes leaves a search that can be saved, loaded and
continued.  The continued planning ends where one planning with the higher limit ends
(`Problem.Proper.plan_resumed`): the answer is the same, and so is the search with its frontier,
what it has seen, its history and its steps.

What is saved does not say in which order the facts of a state were met, and after loading it may be
another one.  This shows only where two facts of a state have one text
(`Problem.not_forall_plan_resumed`); where states are listed alike before and after, planning is the
same under either enumeration, and the two runs are one (`Search.RunsTo.resume`).
-/

namespace HornPlan

namespace Problem

variable {p : Problem} {strategy : Strategy} {search : Search} {b : Nat} {limit : Int}
  {verbose : Bool}

/-! ## Plannings -/

/-- The relaxed graph does not rule out the goal for a search that was continued. -/
theorem unreachable?_eq_none (h : p.unreachable? (.start p.initialState) = .ok none)
    (hinitial : search.initialState = p.initialState) : p.unreachable? search = .ok none := by
  unfold unreachable? at h ⊢
  split
  · rfl
  · rename_i goals hgoals
    split
    · rfl
    · rw [hgoals] at h
      rw [hinitial]
      exact h

/-- The relaxed graph rules the goal out again where a search has not been continued. -/
theorem planWith_of_unreachable? {layers : Nat} (h : p.unreachable? search = .ok (some layers)) :
    (p.planWith ⟨.whole b, .whole limit, .ok false, verbose⟩ strategy search).answer
        = .ok (.notFound (.halted (.cause .goalUnreachable)) 0 (some (.whole b))) ∧
      (p.planWith ⟨.whole b, .whole limit, .ok false, verbose⟩ strategy search).search
        = search.halt .goalUnreachable ∧
      (p.planWith ⟨.whole b, .whole limit, .ok false, verbose⟩ strategy search).checkpoint =
      none := by
  rw [planWith, planTimed, Request.timed, requireBound_eq_ok, ok_bind, h]
  exact ⟨rfl, rfl, rfl⟩

theorem exists_runsTo (hunreachable : p.unreachable? search = .ok none) {k : Int}
    (hk : search.step = .whole k) {planning : Planning}
    (h : p.planWith ⟨.whole b, .whole limit, .ok false, verbose⟩ strategy search = planning) :
    ∃ error, Search.RunsTo p strategy.policy (some (.whole b)) verbose limit search strategy.memory
        planning.search error ∧
      planning.answer = answerOf planning.search (.whole b) (.whole limit) error ∧
      (error = none → ∀ kept, planning.checkpoint = some kept → kept = planning.search) := by
  have hrounds : (limit - k).toNat ≤ search.step.roundsBelow (.whole limit) := by
    rw [hk]
    exact le_rfl
  obtain ⟨run, hrun, hanswer, hsearch, hcheckpoint⟩ := exists_run_of_planTimed hunreachable h
  have hruns := Search.runsTo_runFor hk hrounds hrun
  have hkept := Search.checkpoint_runFor (fun _ h => by cases h) hrun
  rw [hsearch, hcheckpoint]
  exact ⟨run.error, hruns, hanswer, hkept⟩

theorem reachable_planWith (h : Search.Reachable p search) (request : Request)
    (strategy : Strategy) :
    Search.Reachable p (p.planWith request strategy search).search := by
  unfold planWith planTimed
  split
  · exact h
  · exact h.halt .goalUnreachable
  · dsimp only
    split
    · exact h.runFor
    · exact h.runFor

end Problem

/-! ## Saving and loading -/

/-- The text of a search in a file. -/
def Enumeration.save (e : Enumeration) (search : Search) : Except Error String :=
  (e.searchData search).map Json.print

/-- The search in the text of a file. -/
def Search.load? (text : String) : Except Error Search := do
  Search.ofData? (← (Json.read? text.toList).mapError .unreadableFile)

theorem Search.Storable.exists_save {search : Search} (h : search.Storable) (e : Enumeration)
    (hread : ∀ document, e.searchData search = .ok document →
      Json.read? document.print.toList = .ok document) :
    ∃ text, e.save search = .ok text ∧ Search.load? text = .ok search := by
  obtain ⟨document, hdocument, hsearch⟩ := h.exists_searchData e
  refine ⟨document.print, ?_, ?_⟩
  · rw [Enumeration.save, hdocument]
    rfl
  · rw [Search.load?, hread document hdocument]
    exact hsearch

/-- Reading the result off a search fails only where it has a solution, whatever the limit. -/
theorem Search.result_eq_error {search : Search} {bound maxNodes maxNodes' : Count} {e : Error}
    (h : search.result bound maxNodes = .error e) :
    search.found = true ∧ search.result bound maxNodes' = .error e := by
  rcases bind_eq_error.mp h with hextract | ⟨extracted, -, h⟩
  · refine ⟨?_, by rw [result, hextract]; rfl⟩
    unfold extract at hextract
    split at hextract
    · cases hextract
    · rename_i node hsolution
      rw [found, hsolution]
      rfl
  · cases extracted <;> cases h

namespace Problem

variable {p : Problem} {m n : Int} {verbose verbose' verbose'' : Bool} {name : StrategyName}
  {lines : List String} {first whole : Planning}

theorem Proper.storable_plan (hp : p.Proper) {request : Request} {strategy : Strategy}
    (hfirst : p.plan request strategy = first) : first.search.Storable := by
  subst hfirst
  exact (reachable_planWith (.start hp.initialState) request strategy).storable hp

/-- How a planning stands to one that was asked for more: it fails in the same way, or what it has
kept is its search, and continuing that search has the answer and leaves the search of the other
one. -/
structure IsPartOf (p : Problem) (request : Request) (strategy : Strategy)
    (first whole : Planning) : Prop where
  fails : ∀ e, first.answer = .error e → whole.answer = .error e
  keeps : ∀ result, first.answer = .ok result → ∀ kept, first.checkpoint = some kept →
    kept = first.search
  answer : ∀ result, first.answer = .ok result →
    (p.planWith request strategy first.search).answer = whole.answer
  search : ∀ result, first.answer = .ok result →
    (p.planWith request strategy first.search).search = whole.search

theorem isPartOf_of_error {request : Request} {strategy : Strategy} {e : Error}
    (hfirst : first.answer = .error e) (hwhole : whole.answer = .error e) :
    p.IsPartOf request strategy first whole := by
  refine ⟨fun e' he' => hwhole.trans (hfirst.symm.trans he'), ?_, ?_, ?_⟩
  all_goals exact fun result h => by cases hfirst.symm.trans h

section

variable {b : Nat}

theorem isPartOf_of_unreachable {strategy : Strategy} {layers : Nat}
    (h : p.unreachable? (.start p.initialState) = .ok (some layers)) :
    p.IsPartOf ⟨.whole b, .whole n, .ok false, verbose''⟩ strategy
      (p.plan ⟨.whole b, .whole m, .ok false, verbose⟩ strategy)
      (p.plan ⟨.whole b, .whole n, .ok false, verbose'⟩ strategy) := by
  obtain ⟨hanswer, hsearch, hcheckpoint⟩ := planWith_of_unreachable? h
  obtain ⟨hanswer', hsearch', -⟩ := planWith_of_unreachable? h
  have hagain :
      p.unreachable? ((Search.start p.initialState).halt .goalUnreachable) = .ok (some layers) := h
  obtain ⟨hanswer'', hsearch'', -⟩ := planWith_of_unreachable? hagain
  unfold plan
  refine ⟨?_, ?_, ?_, ?_⟩
  · intro e he
    cases hanswer.symm.trans he
  · intro _ _ kept hkept
    cases hcheckpoint.symm.trans hkept
  · intro _ _
    rw [hsearch]
    exact hanswer''.trans hanswer'.symm
  · intro _ _
    rw [hsearch]
    exact hsearch''.trans hsearch'.symm

theorem Proper.isPartOf_of_reachable (hp : p.Proper) (hname : name ≠ .interactive) (hle : m ≤ n)
    (hunreachable : p.unreachable? (.start p.initialState) = .ok none)
    (hfirst : p.plan ⟨.whole b, .whole m, .ok false, verbose⟩ (name.strategy p lines) = first)
    (hwhole : p.plan ⟨.whole b, .whole n, .ok false, verbose'⟩ (name.strategy p lines) = whole) :
    p.IsPartOf ⟨.whole b, .whole n, .ok false, verbose''⟩ (name.strategy p lines) first whole := by
  have hstart : (Search.start p.initialState).Storable := Search.storable_start hp.initialState
  obtain ⟨Valid, hmemory, hforgetful⟩ := StrategyName.exists_forgetful hname p lines
  obtain ⟨error, hruns, hanswer, hkept⟩ := exists_runsTo hunreachable rfl hfirst
  obtain ⟨error', hruns', hanswer', -⟩ := exists_runsTo hunreachable rfl hwhole
  cases error with
  | some e =>
      obtain ⟨-, rfl⟩ :=
        (hruns.failed_of_le hle rfl).unique_of_forgetful hruns' hp hforgetful hstart
        hmemory hmemory
      exact isPartOf_of_error hanswer hanswer'
  | none =>
      -- the continued search is that of the planning with the higher limit, and so is what is read
      -- off it
      have hagain := unreachable?_eq_none hunreachable hruns.initialState_eq
      obtain ⟨k, hk⟩ := (hruns.regular (Search.regular_start _)).step
      obtain ⟨error'', hrest, hanswer'', -⟩ := exists_runsTo hagain hk rfl
      have hresumed := hruns.resume rfl hrest hle hp hforgetful hstart hmemory hmemory
      obtain ⟨hsearch, rfl⟩ :=
        hresumed.unique_of_forgetful hruns' hp hforgetful hstart hmemory hmemory
      refine ⟨?_, fun _ _ => hkept rfl, fun _ _ => ?_, fun _ _ => hsearch⟩
      · intro e he
        obtain ⟨hfound, hfails⟩ := Search.result_eq_error (hanswer.symm.trans he)
        have hhalted : first.search.halted = true := (hp.storable_plan hfirst).found hfound
        obtain ⟨hsame, rfl⟩ := hrest.of_halted hhalted
        rw [hanswer', ← hsearch, hsame]
        exact hfails
      · rw [hanswer'', hanswer', hsearch]

end

theorem Proper.isPartOf_of_plan (hp : p.Proper) (hname : name ≠ .interactive) (bound : Int)
    (hle : m ≤ n)
    (hfirst : p.plan ⟨.whole bound, .whole m, .ok false, verbose⟩ (name.strategy p lines) = first)
    (hwhole : p.plan ⟨.whole bound, .whole n, .ok false, verbose'⟩
      (name.strategy p lines) = whole) :
    p.IsPartOf ⟨.whole bound, .whole n, .ok false, verbose''⟩
      (name.strategy p lines) first whole := by
  by_cases hnegative : bound < 0
  · exact isPartOf_of_error (hfirst ▸ answer_of_negative hnegative)
      (hwhole ▸ answer_of_negative hnegative)
  · obtain ⟨b, rfl⟩ := Int.eq_ofNat_of_zero_le (not_lt.mp hnegative)
    rcases hunreachable : p.unreachable? (.start p.initialState) with e | _ | layers
    · exact isPartOf_of_error (hfirst ▸ answer_of_unreachable?_eq_error hunreachable)
        (hwhole ▸ answer_of_unreachable?_eq_error hunreachable)
    · exact hp.isPartOf_of_reachable hname hle hunreachable hfirst hwhole
    · subst hfirst hwhole
      exact isPartOf_of_unreachable hunreachable

/-- The search that a planning leaves begins where planning begins, and planning comes to the states
on its frontier. -/
theorem explores_plan (p : Problem) (request : Request) (strategy : Strategy) :
    (p.plan request strategy).search.initialState = p.initialState ∧
      ∀ n ∈ (p.plan request strategy).search.frontier,
        Relation.ReflTransGen p.Explores p.initialState n.state := by
  have hhonest := (Search.honest_start p p.initialState).planTimed request.timed strategy
  exact ⟨hhonest.initialState, fun n hn => (hhonest.leads n hn).explores⟩

/-- **An interrupted search is resumed as if it had never stopped**, where states are listed alike
before and after.  Every search that the problem can come to is written and read back with all its
parts, however its states are gone through.  Where a planning with a limit on the nodes fails, it
fails with any higher limit.  Where it answers, what is saved of its search can be loaded, and a
planning that continues the loaded search with a higher limit has the answer and leaves the search
of one that was never interrupted.

All enumerations list states alike exactly when texts tell the facts of each state apart that
planning comes to, as they do in a plain problem.  The text of what is saved is supposed to be read
as that document, as that of a plain one is (`Json.read?_print`). -/
theorem Proper.plan_resumed (hp : p.Proper) (hname : name ≠ .interactive) (bound : Int)
    (hle : m ≤ n) {before after : Enumeration} (hbefore : p.ListsAlike before)
    (hafter : p.ListsAlike after)
    (hfirst : (p.under before).plan ⟨.whole bound, .whole m, .ok false, verbose⟩
      (name.strategy (p.under before) lines) = first)
    (hwhole : p.plan ⟨.whole bound, .whole n, .ok false, verbose'⟩ (name.strategy p lines) = whole)
    (hread : ∀ document, before.searchData first.search = .ok document →
      Json.read? document.print.toList = .ok document) :
    (∀ search, Search.Reachable p search → ∀ e : Enumeration,
      ∃ document, e.searchData search = .ok document ∧ Search.ofData? document = .ok search) ∧
    ((∀ e, p.ListsAlike e) ↔ p.TellsApart) ∧ (p.isPlain → p.TellsApart) ∧
    (∀ e, first.answer = .error e → whole.answer = .error e) ∧
    ∀ result, first.answer = .ok result →
      (∀ kept, first.checkpoint = some kept → kept = first.search) ∧
      ∃ text loaded, before.save first.search = .ok text ∧ Search.load? text = .ok loaded ∧
        ∀ verbose'', ((p.under after).planWith ⟨.whole bound, .whole n, .ok false, verbose''⟩
            (name.strategy (p.under after) lines) loaded).answer = whole.answer ∧
          ((p.under after).planWith ⟨.whole bound, .whole n, .ok false, verbose''⟩
            (name.strategy (p.under after) lines) loaded).search = whole.search := by
  -- what is planned under the other enumeration before the interruption is planned under that of
  -- the problem
  have hsame := hp.planTimed_strategy_under hbefore rfl (explores_start p)
    (Request.timed ⟨.whole bound, .whole m, .ok false, verbose⟩) name lines
  have hfirst :
      p.plan ⟨.whole bound, .whole m, .ok false, verbose⟩ (name.strategy p lines) = first :=
    hsame.symm.trans hfirst
  have hpart :
      ∀ verbose'', p.IsPartOf ⟨.whole bound, .whole n, .ok false, verbose''⟩ (name.strategy p lines)
      first whole := fun _ => hp.isPartOf_of_plan hname bound hle hfirst hwhole
  obtain ⟨text, hsave, hload⟩ := (hp.storable_plan hfirst).exists_save before hread
  refine ⟨fun search h e => (h.storable hp).exists_searchData e, listsAlike_iff_tellsApart,
    hp.tellsApart, (hpart verbose).fails, ?_⟩
  intro result hresult
  refine ⟨(hpart verbose).keeps result hresult, text, first.search, hsave, hload,
    fun verbose'' => ?_⟩
  -- and so is what is planned after it, from the search that was left
  obtain ⟨hinitial, hfrontier⟩ := explores_plan p ⟨.whole bound, .whole m, .ok false, verbose⟩
    (name.strategy p lines)
  rw [hfirst] at hinitial hfrontier
  have hresumed : (p.under after).planWith ⟨.whole bound, .whole n, .ok false, verbose''⟩
        (name.strategy (p.under after) lines) first.search
      = p.planWith ⟨.whole bound, .whole n, .ok false,
        verbose''⟩ (name.strategy p lines) first.search :=
    hp.planTimed_strategy_under hafter hinitial hfrontier _ name lines
  rw [hresumed]
  exact ⟨(hpart verbose'').answer result hresult, (hpart verbose'').search result hresult⟩

/-- The search for a cake that has been eaten stops after one node.  It finds the plan when it is
loaded again, though the facts of states are met in the opposite order from then on. -/
theorem plan_resumed_haveCake : ∃ p first plan, Worlds.haveCake = .ok p ∧ p.Proper ∧
    p.ListsAlike p.order ∧ p.ListsAlike p.order.reversed ∧
    p.plan ⟨.whole 3, .whole 1, .ok false, false⟩
      (StrategyName.breadthFirst.strategy p []) = first ∧
    (∃ reason nodesExpanded within, first.answer = .ok (.notFound reason nodesExpanded within) ∧
      reason.text = "node limit 1 exceeded") ∧
    (∀ document, p.order.searchData first.search = .ok document →
      Json.read? document.print.toList = .ok document) ∧
    ∃ text loaded, p.order.save first.search = .ok text ∧ Search.load? text = .ok loaded ∧
      ((p.under p.order.reversed).planWith ⟨.whole 3, .whole 100, .ok false, false⟩
        (StrategyName.breadthFirst.strategy (p.under p.order.reversed) []) loaded).answer
          = .ok (.found plan) := by
  obtain ⟨p, hcake, hproper⟩ := exists_haveCake
  have hstopped :
      ((Worlds.haveCake.toOption.bind fun p => (p.plan ⟨.whole 3, .whole 1, .ok false, false⟩
      (StrategyName.breadthFirst.strategy p [])).answer.toOption.bind PlanResult.reason?).map
        NoPlanReason.text) = some "node limit 1 exceeded" := by
    decide +kernel
  have hplain : (Worlds.haveCake.toOption.bind fun p => (p.order.searchData (p.plan
      ⟨.whole 3, .whole 1, .ok false, false⟩
      (StrategyName.breadthFirst.strategy p [])).search).toOption.map
        Json.isPlain) = some true := by
    decide +kernel
  have hfound :
      (Worlds.haveCake.toOption.bind fun p => (p.plan ⟨.whole 3, .whole 100, .ok false, false⟩
      (StrategyName.breadthFirst.strategy p [])).answer.toOption.bind PlanResult.plan?).isSome := by
    decide +kernel
  have hplainProblem : (Worlds.haveCake.toOption.map isPlain) = some true := by decide +kernel
  rw [hcake] at hstopped hplain hfound hplainProblem
  obtain ⟨first, hfirst⟩ : ∃ first, p.plan ⟨.whole 3, .whole 1, .ok false, false⟩
      (StrategyName.breadthFirst.strategy p []) = first := ⟨_, rfl⟩
  obtain ⟨reason, nodesExpanded, within, hanswer, htext⟩ := PlanResult.exists_of_reason?_eq hstopped
  obtain ⟨plan, hplan⟩ := PlanResult.exists_of_plan?_isSome hfound
  change (p.order.searchData (p.plan _ _).search).toOption.map Json.isPlain = some true at hplain
  rw [hfirst] at hanswer hplain
  -- what is saved holds no fractions, so that it is read as it is printed
  have hread : ∀ document, p.order.searchData first.search = .ok document →
      Json.read? document.print.toList = .ok document := by
    intro document hdocument
    rw [hdocument] at hplain
    exact Json.read?_print (Option.some.inj hplain)
  have halike := listsAlike_iff_tellsApart.mpr (hproper.tellsApart (Option.some.inj hplainProblem))
  have hname : StrategyName.breadthFirst ≠ .interactive := nofun
  have hle : (1 : Int) ≤ 100 := by decide
  obtain ⟨-, -, -, -, hanswers⟩ :=
    hproper.plan_resumed hname 3 hle (halike p.order) (halike p.order.reversed)
    hfirst rfl hread
  obtain ⟨-, text, loaded, hsave, hload, hsame⟩ := hanswers _ hanswer
  exact ⟨p, first, plan, hcake, hproper, halike _, halike _, hfirst,
    ⟨reason, nodesExpanded, within, hanswer, htext⟩, hread, text, loaded, hsave, hload,
    (hsame false).1.trans hplan⟩

/-- Somebody enters, and then visits an owner, of whom there are two that are printed alike. -/
def visiting : Except Error Problem := do
  let enter ← Worlds.action "Enter" [] [("Outside", [])] [] [("Inside", [])] [("Outside", [])] []
  let visit ← Worlds.action "Visit" ["y", "x"] [("Inside", []), ("Owns", ["x", "y"])] []
    [("Visited", [])] [] []
  Problem.make? (.str "visiting")
    (← Worlds.facts [("Outside", []), ("Owns", ["Ann, Bob", "House"]),
    ("Owns", ["Ann", "Bob, House"])])
    [.inl enter, .inl visit] (← Worlds.goal [("Visited", [])])

/-- Not every search is resumed as if it had never stopped: after the interruption another owner may
be visited. -/
theorem not_forall_plan_resumed : ¬∀ (p : Problem) (name : StrategyName) (bound m n : Int)
    (before after : Enumeration) (first : Planning) (text : String) (loaded : Search), p.Proper →
    name ≠ .interactive → m ≤ n →
    (p.under before).plan ⟨.whole bound, .whole m, .ok false, false⟩
    (name.strategy (p.under before) [])
      = first →
    before.save first.search = .ok text → Search.load? text = .ok loaded →
    ((p.under after).planWith ⟨.whole bound, .whole n, .ok false, false⟩
        (name.strategy (p.under after) []) loaded).answer
      = ((p.under before).plan ⟨.whole bound, .whole n, .ok false, false⟩
        (name.strategy (p.under before) [])).answer := by
  intro h
  obtain ⟨p, hvisiting, hproper⟩ : ∃ p, visiting = .ok p ∧ p.Proper :=
    exists_ok_of_isProper (by decide +kernel)
  let start (p : Problem) : Search :=
    (p.plan ⟨.whole 2, .whole 1, .ok false, false⟩ (StrategyName.breadthFirst.strategy p [])).search
  let visited (planning : Planning) : Option String :=
    (planning.answer.toOption.bind PlanResult.plan?).map Plan.text
  have hplain :
      (visiting.toOption.bind fun p => (p.order.searchData (start p)).toOption.map Json.isPlain)
      = some true := by
    decide +kernel
  have hdiffer : (visiting.toOption.map fun p => visited ((p.under p.order.reversed).planWith
      ⟨.whole 2, .whole 100, .ok false, false⟩ (StrategyName.breadthFirst.strategy p [])
      (start p)) ==
        visited (p.plan ⟨.whole 2, .whole 100, .ok false, false⟩
          (StrategyName.breadthFirst.strategy p [])))
      = some false := by
    decide +kernel
  rw [hvisiting] at hplain hdiffer
  have hread : ∀ document, p.order.searchData (start p) = .ok document →
      Json.read? document.print.toList = .ok document := by
    intro document hdocument
    have hplain : (p.order.searchData (start p)).toOption.map Json.isPlain = some true := hplain
    rw [hdocument] at hplain
    exact Json.read?_print (Option.some.inj hplain)
  obtain ⟨text, hsave, hload⟩ := (hproper.storable_plan rfl).exists_save p.order hread
  -- resumed and uninterrupted, the two plans visit different owners
  have hsame :=
    h p .breadthFirst 2 1 100 p.order p.order.reversed _ text _ hproper nofun
      (by decide) rfl hsave hload
  have hvisited := congrArg (fun answer : Except Error PlanResult =>
    (answer.toOption.bind PlanResult.plan?).map Plan.text) hsame
  exact absurd (Option.some.inj hdiffer) (by rw [beq_eq_false_iff_ne, not_not]; exact hvisited)

end Problem

end HornPlan
