import HornPlan.Proofs.Calls
import HornPlan.Proofs.Failures
import HornPlan.Proofs.Plans

/-!
# What a simulation finds out

A simulation executes the actions that the steps of a plan stand for, one after the other.  An
action that is ground may be taken in a state or it may not, wherever the action comes from
(`Problem.Permits`); a step of a simulation is executed or the plan is rejected accordingly, and
nothing else can happen (`Proper.simulateFrom_cons`).  So a simulation accepts a plan exactly if the
actions may be taken one after the other and lead to the goal (`Proper.simulateFrom_accepted_iff`).

Where these actions are instances of the schemas of the problem, they are executed: a plan is then
accepted only when its actions lead from the initial state to the goal, each of them executable in
the state before it (`Proper.runs_of_simulateFrom`).  A simulation of a problem with a conjunction
for its goal comes to a report unless it *comes to* a step, all steps before it having been
executed, that is not resolved for another reason than a fault with the schemas
(`Proper.simulateFrom_eq_error_iff`).
-/

namespace HornPlan

namespace SimulationReport

theorem checked_eq_ok {report : SimulationReport} (h : report.isPrintable = true) :
    report.checked = .ok report :=
  if_pos h

end SimulationReport

/-! ## Ground actions -/

namespace Action

variable {a : Action} {s : State}

theorem isGround_of_ground {g : Action} {σ : Substitution} (h : a.ground σ = .ok g) :
    g.isGround := by
  obtain ⟨_, -, h⟩ := bind_eq_ok.mp h
  obtain ⟨_, -, h⟩ := bind_eq_ok.mp h
  split at h
  · obtain rfl := Except.ok.inj h
    assumption
  · cases h

/-- A proper action that is ground. -/
structure Concrete (a : Action) : Prop where
  proper : a.isProper
  isGround : a.isGround

theorem Concrete.closed (ha : a.Concrete) {b : Atom} (hb : b ∈ a.atoms) : b.Closed :=
  closed_of_isGround ha.proper ha.isGround hb

theorem Concrete.isApplicable_eq (ha : a.Concrete) : a.isApplicable s = .ok (a.enabled s) := by
  rw [isApplicable, requireGround, if_pos ha.isGround]
  rfl

theorem Concrete.proper_result (ha : a.Concrete) (hs : s.Proper) : (a.result s).Proper :=
  (hs.removeAll a.deletes).insertAll fun b hb => ha.closed (by simp [Schema.atoms, hb])

end Action

namespace Problem

variable {p : Problem} {s t : State} {a : Action} {as : List Action} {ss : List State} {step : Step}
  {steps rest : List Step} {index : Nat} {report : SimulationReport} {goals : List Atom} {e : Error}

/-- An action may be taken in a state and leads to another one, wherever it comes from: its static
conditions are entailed, its required facts are there and its forbidden facts are not, and applying
it gives the other state. -/
structure Permits (p : Problem) (s : State) (a : Action) (t : State) : Prop where
  entailed : ∃ facts, p.kb.closure = .ok facts ∧ ∀ f ∈ a.static, f ∈ facts
  required : ∀ f ∈ a.requires, f ∈ s.facts
  forbidden : ∀ f ∈ a.forbids, f ∉ s.facts
  applied : a.apply s = .ok t

theorem Permits.result_eq (h : p.Permits s a t) : a.result s = t := by
  obtain ⟨_, -, happlied⟩ := bind_eq_ok.mp h.applied
  exact Except.ok.inj happlied

theorem Permits.enabled (hs : s.Proper) (h : p.Permits s a t) : a.enabled s := by
  refine Bool.and_eq_true_iff.mpr ⟨?_, ?_⟩
  · exact List.all_eq_true.mpr fun f hf => hs.holdsFact_iff.mpr (h.required f hf)
  · refine List.all_eq_true.mpr fun f hf => ?_
    rw [Bool.not_eq_true', Bool.eq_false_iff]
    exact fun hholds => h.forbidden f hf (hs.holdsFact_iff.mp hholds)

/-- A ground action may be taken where its static conditions hold and it is enabled. -/
theorem permits_of_enabled (hs : s.Proper) (hground : a.isGround)
    (hentailed : ∃ facts, p.kb.closure = .ok facts ∧ ∀ f ∈ a.static, f ∈ facts)
    (henabled : a.enabled s) :
    p.Permits s a (a.result s) := by
  obtain ⟨hrequires, hforbids⟩ := Bool.and_eq_true_iff.mp henabled
  refine ⟨hentailed, fun f hf => hs.holdsFact_iff.mp (List.all_eq_true.mp hrequires f hf), ?_, ?_⟩
  · intro f hf hmem
    have habsent := List.all_eq_true.mp hforbids f hf
    rw [hs.holdsFact_iff.mpr hmem] at habsent
    cases habsent
  · rw [Action.apply, Action.requireGround, if_pos hground]
    rfl

/-! ## One step -/

/-- **What one step of a simulation does**: its action may be taken and the simulation goes on after
it, or it may not be taken and the plan is rejected. -/
theorem Proper.simulateFrom_cons (hp : p.Proper) (hs : s.Proper) (hresolve : p.resolve step = .ok a)
    (ha : a.Concrete) (index : Nat) (rest : List Step) :
    (p.Permits s a (a.result s) ∧
        p.simulateFrom index s (step :: rest) = p.simulateFrom (index + 1) (a.result s) rest) ∨
      ((∀ t, ¬p.Permits s a t) ∧
        ∃ report, p.simulateFrom index s (step :: rest) = .ok report ∧
        report.accepted = false) := by
  have hprintable : ∀ b ∈ a.atoms, b.isPrintable :=
    fun b hb => Term.isPrintable_of_isProper (ha.closed hb).1
  obtain ⟨facts, hfacts, -⟩ := hp.exists_knowledge
  have hclosed : ∀ c ∈ a.static, c.Closed := fun c hc => ha.closed (by simp [Schema.atoms, hc])
  obtain ⟨holds, hholds, hiff⟩ := hp.exists_staticHolds hfacts hclosed
  rw [simulateFrom, hresolve]
  dsimp only
  rw [hholds, ok_bind]
  -- the static conditions are looked at first, and then the state
  cases holds with
  | false =>
      refine Or.inr ⟨fun t ht => ?_, _, SimulationReport.checked_eq_ok ?_, rfl⟩
      · obtain ⟨entailed, hentailed, hsub⟩ := ht.entailed
        obtain rfl := Except.ok.inj (hfacts.symm.trans hentailed)
        cases hiff.mpr fun f hf => hsub f hf
      · exact Action.isPrintable_of_isProper ha.proper
  | true =>
      rw [ha.isApplicable_eq, ok_bind]
      cases henabled : a.enabled s with
      | true =>
          exact Or.inl
            ⟨permits_of_enabled hs ha.isGround ⟨facts, hfacts, fun f hf => hiff.mp rfl hf⟩ henabled,
              rfl⟩
      | false =>
          refine Or.inr ⟨fun t ht => ?_, _, SimulationReport.checked_eq_ok ?_, rfl⟩
          · cases henabled.symm.trans (ht.enabled hs)
          · refine Bool.and_eq_true_iff.mpr ⟨Action.isPrintable_of_isProper ha.proper, ?_⟩
            refine List.all_eq_true.mpr (List.forall_mem_append.mpr ⟨?_, ?_⟩)
            · exact fun b hb => hprintable b (by simp [Schema.atoms, (List.mem_filter.mp hb).1])
            · exact fun b hb => hprintable b (by simp [Schema.atoms, (List.mem_filter.mp hb).1])

/-! ## Accepted plans -/

/-- The actions that steps are resolved to may be taken one after the other, and lead from one state
to another. -/
inductive Replays (p : Problem) : State → List Step → List Action → State → Prop
  | nil (s : State) : Replays p s [] [] s
  | cons {s u t : State} {step : Step} {steps : List Step} {a : Action} {as : List Action}
      (hresolve : p.resolve step = .ok a) (hpermits : p.Permits s a u)
      (hrest : Replays p u steps as t) :
      Replays p s (step :: steps) (a :: as) t

theorem Replays.mapM_resolve (h : p.Replays s steps as t) : steps.mapM p.resolve = .ok as := by
  induction h with
  | nil => rfl
  | @cons s u t step steps a as hresolve _ _ ih =>
      exact mapM_cons_eq_ok.mpr ⟨a, as, hresolve, ih, rfl⟩

/-- **A simulation accepts steps exactly if their actions may be taken one after the other and lead
to the goal.** -/
theorem Proper.simulateFrom_accepted_iff (hp : p.Proper) (hs : s.Proper)
    (hsteps : ∀ step ∈ steps, ∀ a, p.resolve step = .ok a → a.Concrete) (index : Nat) :
    (∃ report, p.simulateFrom index s steps = .ok report ∧ report.accepted) ↔
      ∃ as t, p.Replays s steps as t ∧ p.reaches t = .ok true := by
  induction steps generalizing index s with
  | nil =>
      constructor
      · rintro ⟨report, h, haccepted⟩
        obtain ⟨reached, hreached, h⟩ := bind_eq_ok.mp h
        obtain rfl := Except.ok.inj h
        cases reached with
        | true => exact ⟨[], s, .nil s, hreached⟩
        | false => cases haccepted
      · rintro ⟨as, t, hreplays, hreached⟩
        cases hreplays
        rw [simulateFrom, hreached]
        exact ⟨.goalReached, rfl, rfl⟩
  | cons step steps ih =>
      obtain ⟨hstep, hrest⟩ := List.forall_mem_cons.mp hsteps
      rcases hresolve : p.resolve step with error | a
      · -- a step that is not resolved is neither accepted nor taken
        refine iff_of_false ?_ ?_
        · rintro ⟨report, h, haccepted⟩
          rw [simulateFrom, hresolve] at h
          split at h
          · obtain rfl := Except.ok.inj h
            cases haccepted
          · cases h
          · cases ‹Except.error _ = Except.ok _›
        · rintro ⟨as, t, hreplays, -⟩
          cases hreplays with
          | cons hresolved => cases hresolve.symm.trans hresolved
      · have ha := hstep a hresolve
        rcases hp.simulateFrom_cons hs hresolve ha index steps with
          ⟨hpermits, hgoes⟩ | ⟨hnot, rejected, hends, hrejected⟩
        · rw [hgoes, ih (ha.proper_result hs) hrest]
          constructor
          · rintro ⟨as, t, hreplays, hreaches⟩
            exact ⟨a :: as, t, .cons hresolve hpermits hreplays, hreaches⟩
          · rintro ⟨as, t, hreplays, hreaches⟩
            cases hreplays with
            | @cons _ u _ _ _ _ as hresolved hpermitted hreplays =>
                obtain rfl := Except.ok.inj (hresolve.symm.trans hresolved)
                rw [hpermitted.result_eq]
                exact ⟨as, t, hreplays, hreaches⟩
        · rw [hends]
          refine iff_of_false ?_ ?_
          · rintro ⟨report, h, haccepted⟩
            obtain rfl := Except.ok.inj h
            cases hrejected.symm.trans haccepted
          · rintro ⟨as, t, hreplays, -⟩
            cases hreplays with
            | cons hresolved hpermitted =>
                obtain rfl := Except.ok.inj (hresolve.symm.trans hresolved)
                exact hnot _ hpermitted

/-! ## Instances -/

/-- A proper ground instance of a schema of the problem. -/
structure Instantiates (p : Problem) (a : Action) : Prop where
  proper : a.isProper
  ground : ∃ schema ∈ p.actions, ∃ σ, schema.ground σ = .ok a

theorem Instantiates.concrete (ha : p.Instantiates a) : a.Concrete := by
  obtain ⟨_, -, _, hground⟩ := ha.ground
  exact ⟨ha.proper, Action.isGround_of_ground hground⟩

theorem Executes.permits (h : p.Executes s a t) : p.Permits s a t :=
  ⟨h.entailed, h.required, h.forbidden, h.applied⟩

theorem Permits.executes (h : p.Permits s a t) (hp : p.Proper) (hs : s.Proper)
    (ha : p.Instantiates a) :
    p.Executes s a t := by
  obtain ⟨facts, hfacts, hsub⟩ := h.entailed
  have hclosed : ∀ c ∈ a.static, c.Closed :=
    fun c hc => ha.concrete.closed (by simp [Schema.atoms, hc])
  have hexecutable : p.isExecutable a s = .ok true :=
    (hp.isExecutable_iff hfacts ha.concrete.isGround hclosed s).mpr ⟨fun f hf => hsub f hf,
      h.enabled hs⟩
  exact ⟨ha.ground, hexecutable, h.entailed, h.required, h.forbidden, h.applied⟩

theorem Proper.simulateFrom_cons_cases (hp : p.Proper) (hs : s.Proper)
    (hresolve : p.resolve step = .ok a) (ha : p.Instantiates a) (index : Nat) (rest : List Step) :
    (p.Executes s a (a.result s) ∧
        p.simulateFrom index s (step :: rest) = p.simulateFrom (index + 1) (a.result s) rest) ∨
      ((∀ t, ¬p.Executes s a t) ∧
        ∃ report, p.simulateFrom index s (step :: rest) = .ok report ∧
        report.accepted = false) := by
  rcases hp.simulateFrom_cons hs hresolve ha.concrete index rest with
      ⟨hpermits, hgoes⟩ | ⟨hnot, hends⟩
  · exact Or.inl ⟨hpermits.executes hp hs ha, hgoes⟩
  · exact Or.inr ⟨fun t ht => hnot t ht.permits, hends⟩

theorem Runs.statesAfter (h : p.Runs s as ss) :
    ∃ later, statesAfter s as = .ok later ∧ ss = s :: later := by
  induction h with
  | nil s => exact ⟨[], rfl, rfl⟩
  | @cons s t a as ss hexecutes _ ih =>
      obtain ⟨later, hlater, rfl⟩ := ih
      refine ⟨t :: later, ?_, rfl⟩
      rw [HornPlan.statesAfter, hexecutes.applied, ok_bind, hlater]
      rfl

theorem Replays.exists_runs (h : p.Replays s steps as t) (hp : p.Proper) (hs : s.Proper)
    (hsteps : ∀ step ∈ steps, ∀ a, p.resolve step = .ok a → p.Instantiates a) :
    ∃ ss, p.Runs s as ss ∧ ss.getLast? = some t := by
  induction h with
  | nil s => exact ⟨[s], .nil s, rfl⟩
  | @cons s u t step steps a as hresolve hpermits _ ih =>
      obtain ⟨hstep, hrest⟩ := List.forall_mem_cons.mp hsteps
      have ha := hstep a hresolve
      have hu : u.Proper := hpermits.result_eq ▸ ha.concrete.proper_result hs
      obtain ⟨ss, hruns, hlast⟩ := ih hu hrest
      refine ⟨s :: ss, .cons (hpermits.executes hp hs ha) hruns, ?_⟩
      obtain ⟨later, -, rfl⟩ := hruns.statesAfter
      rwa [List.getLast?_cons_cons]

/-- **A plan of instances is accepted only when its actions lead to the goal.** -/
theorem Proper.runs_of_simulateFrom (hp : p.Proper) (hs : s.Proper)
    (hsteps : ∀ step ∈ steps, ∀ a, p.resolve step = .ok a → p.Instantiates a)
    (h : p.simulateFrom index s steps = .ok report) (haccepted : report.accepted) :
    ∃ as ss t, steps.mapM p.resolve = .ok as ∧ p.Runs s as ss ∧ ss.getLast? = some t ∧
      p.reaches t = .ok true := by
  have hconcrete : ∀ step ∈ steps, ∀ a, p.resolve step = .ok a → a.Concrete :=
    fun step hstep a ha =>
    (hsteps step hstep a ha).concrete
  obtain ⟨as, t, hreplays, hreaches⟩ :=
    (hp.simulateFrom_accepted_iff hs hconcrete index).mp ⟨report, h, haccepted⟩
  obtain ⟨ss, hruns, hlast⟩ := hreplays.exists_runs hp hs hsteps
  exact ⟨as, ss, t, hreplays.mapM_resolve, hruns, hlast, hreaches⟩

/-! ## Simulations without a report -/

/-- Executing steps from a state comes to a step: all steps before it are executed. -/
inductive ComesTo (p : Problem) : State → List Step → Step → Prop
  | here {s : State} {step : Step} {rest : List Step} : ComesTo p s (step :: rest) step
  | later {s t : State} {first step : Step} {rest : List Step} {a : Action}
      (hresolve : p.resolve first = .ok a) (hexecutes : p.Executes s a t)
      (h : ComesTo p t rest step) :
      ComesTo p s (first :: rest) step

theorem ComesTo.mem (h : p.ComesTo s steps step) : step ∈ steps := by
  induction h with
  | here => exact List.mem_cons_self
  | later _ _ _ ih => exact List.mem_cons_of_mem _ ih

/-- **A simulation of a plan for a conjunction fails only at a step that it comes to**, where the
action is not resolved and the schemas are not the reason. -/
theorem Proper.simulateFrom_eq_error_iff (hp : p.Proper) (hgoals : p.goal = .conjunction goals)
    (hs : s.Proper) (hsteps : ∀ step ∈ steps, ∀ a, p.resolve step = .ok a → p.Instantiates a)
    (index : Nat) :
    p.simulateFrom index s steps = .error e ↔
      (∀ fault, e ≠ .schema fault) ∧ ∃ step, p.ComesTo s steps step ∧
      p.resolve step = .error e := by
  induction steps generalizing index s with
  | nil =>
      obtain ⟨reached, hreached⟩ := hp.exists_reaches hgoals hs
      rw [simulateFrom, hreached]
      refine iff_of_false (by rintro ⟨⟩) ?_
      rintro ⟨-, step, hcomes, -⟩
      cases hcomes
  | cons first rest ih =>
      obtain ⟨hfirst, hrest⟩ := List.forall_mem_cons.mp hsteps
      rcases hresolve : p.resolve first with error | a
      · -- the first step is not resolved, so that no other is come to
        have hcomes : ∀ step, p.ComesTo s (first :: rest) step → step = first := by
          intro step h
          cases h with
          | here => rfl
          | later ha => cases hresolve.symm.trans ha
        rw [simulateFrom, hresolve]
        constructor
        · intro h
          split at h
          · cases h
          · rename_i error hno heq
            obtain rfl := Except.error.inj heq
            obtain rfl := Except.error.inj h
            exact ⟨hno, first, .here, hresolve⟩
          · cases ‹Except.error _ = Except.ok _›
        · rintro ⟨hno, step, hstep, herror⟩
          obtain rfl := hcomes step hstep
          obtain rfl := Except.error.inj (hresolve.symm.trans herror)
          split
          · rename_i fault hfault
            exact absurd (Except.error.inj hfault) (hno fault)
          · rename_i heq
            rw [Except.error.inj heq]
          · cases ‹Except.error _ = Except.ok _›
      · have ha := hfirst a hresolve
        rcases hp.simulateFrom_cons_cases hs hresolve ha index rest with
          ⟨hexecutes, hgoes⟩ | ⟨hfails, rejected, hends, -⟩
        · rw [hgoes, ih (ha.concrete.proper_result hs) hrest]
          refine and_congr_right fun _ => ⟨?_, ?_⟩
          · rintro ⟨step, hcomes, herror⟩
            exact ⟨step, .later hresolve hexecutes hcomes, herror⟩
          · rintro ⟨step, hcomes, herror⟩
            cases hcomes with
            | here => cases hresolve.symm.trans herror
            | later hfirst hexecutes' hcomes =>
                obtain rfl := Except.ok.inj (hresolve.symm.trans hfirst)
                rw [hexecutes'.result_eq]
                exact ⟨step, hcomes, herror⟩
        · rw [hends]
          refine iff_of_false (by rintro ⟨⟩) ?_
          rintro ⟨-, step, hcomes, herror⟩
          cases hcomes with
          | here => cases hresolve.symm.trans herror
          | later hfirst hexecutes =>
              obtain rfl := Except.ok.inj (hresolve.symm.trans hfirst)
              exact hfails _ hexecutes

end Problem

end HornPlan
