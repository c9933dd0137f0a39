import HornPlan.Proofs.Proposals

/-!
# What the verdict on a plan says

A plan from outside is a list of steps, each of them a ground action or a record.  A simulation
accepts it exactly if the actions that the steps stand for may be taken one after the other and lead
to the goal (`Proper.accepts_iff`): static conditions, required facts and forbidden facts are
checked for either kind of step, in the state that the steps before it lead to.

Whether an action is one of the problem is checked for records only.  A record is resolved by
calling a schema, and what a call makes is an instance of it, whatever stands in the record
(`Proper.instantiates_of_record`).  An action is taken as it is, so that a plan may be accepted that
no actions of the problem make up (`not_forall_instantiates`).
-/

namespace HornPlan

namespace Action

variable {a g : Action} {σ : Substitution} {args : List Term}

/-- An action keeps its name when it is instantiated. -/
theorem name_of_ground (h : a.ground σ = .ok g) : g.name = a.name := by
  obtain ⟨τ, -, h⟩ := bind_eq_ok.mp h
  obtain ⟨instantiated, hinstantiated, h⟩ := bind_eq_ok.mp h
  have hname : instantiated.name = a.name := by
    obtain ⟨_, -, h⟩ := bind_eq_ok.mp hinstantiated
    obtain ⟨_, -, h⟩ := bind_eq_ok.mp h
    obtain ⟨_, -, h⟩ := bind_eq_ok.mp h
    obtain ⟨_, -, h⟩ := bind_eq_ok.mp h
    obtain ⟨_, -, h⟩ := bind_eq_ok.mp h
    obtain ⟨_, -, h⟩ := bind_eq_ok.mp h
    split at h
    · cases h
    · obtain ⟨_, -, h⟩ := bind_eq_ok.mp h
      rw [Schema.toSchema_of_toAction? h]
      rfl
  split at h
  · obtain rfl := Except.ok.inj h
    exact hname
  · cases h

/-- A call with arguments that were read as names accepts none but names. -/
theorem isProper_of_call (hargs : ∀ t ∈ args, ∃ v, Term.named (.foreign (.value v)) = .ok t)
    (h : a.call args = .ok g) : ∀ t ∈ args, t.isProper := by
  obtain ⟨named, hnamed, h⟩ := bind_eq_ok.mp h
  split at h
  · cases h
  · obtain ⟨given, hgiven, -⟩ := bind_eq_ok.mp h
    obtain ⟨taken, htaken, -⟩ := bind_eq_ok.mp hgiven
    intro t ht
    obtain ⟨v, hv⟩ := hargs t ht
    obtain ⟨u, hu, htu⟩ := exists_of_mem_left (mapM_eq_ok.mp hnamed) ht
    obtain ⟨w, hw, huw⟩ := exists_of_mem_left (mapM_eq_ok.mp htaken) hu
    unfold Term.named at hv
    split at hv
    · exact Term.isProper_of_ofName? hv
    · rename_i hno
      obtain rfl := Except.ok.inj hv
      rw [Term.named] at htu
      · obtain rfl := Except.ok.inj htu
        cases huw
      · exact hno

end Action

namespace Problem

variable {p : Problem} {a : Action} {args : List Term} {schemas : List Action} {steps : List Step}
  {name args' : Json}

theorem exists_call_of_callFirst {reasons : List String}
    (h : callFirst args reasons schemas = .ok a) :
    ∃ schema ∈ schemas, schema.call args = .ok a := by
  induction schemas generalizing reasons with
  | nil => cases h
  | cons schema rest ih =>
      rw [callFirst] at h
      split at h
      · rename_i hcall
        obtain rfl := Except.ok.inj h
        exact ⟨schema, List.mem_cons_self, hcall⟩
      · obtain ⟨other, hother, hcall⟩ := ih h
        exact ⟨other, List.mem_cons_of_mem _ hother, hcall⟩
      · obtain ⟨other, hother, hcall⟩ := ih h
        exact ⟨other, List.mem_cons_of_mem _ hother, hcall⟩
      · cases h

/-- **Whatever a record is resolved to is an instance** of a schema of the problem. -/
theorem Proper.instantiates_of_record (hp : p.Proper) (h : p.resolve (.record name args') = .ok a) :
    p.Instantiates a := by
  obtain ⟨items, -, h⟩ := bind_eq_ok.mp h
  obtain ⟨args, hargs, h⟩ := bind_eq_ok.mp h
  obtain ⟨key, -, h⟩ := bind_eq_ok.mp h
  split at h
  · cases h
  · obtain ⟨schema, hschema, hcall⟩ := exists_call_of_callFirst h
    have hmem : schema ∈ p.actions := (List.mem_filter.mp hschema).1
    have hread : ∀ t ∈ args, ∃ v, Term.named (.foreign (.value v)) = .ok t := by
      intro t ht
      obtain ⟨v, -, hv⟩ := exists_of_mem_right (mapM_eq_ok.mp hargs) ht
      exact ⟨v, hv⟩
    exact hp.instantiates_of_call hmem (Action.isProper_of_call hread hcall) hcall

/-! ## Accepted plans -/

theorem Proper.simulate_accepted_iff (hp : p.Proper)
    (hsteps : ∀ step ∈ steps, ∀ a, p.resolve step = .ok a → a.Concrete) :
    (∃ report, p.simulate steps = .ok report ∧ report.accepted) ↔
      ∃ as t, p.Replays p.initialState steps as t ∧ p.reaches t = .ok true := by
  rw [← hp.simulateFrom_accepted_iff hp.initialState hsteps 1, simulate]
  cases steps with
  | cons step rest => rfl
  | nil =>
      rw [List.isEmpty_nil, if_pos rfl, simulateFrom]
      rcases p.reaches p.initialState with e | _ | _
      · rfl
      · rfl
      · exact iff_of_true ⟨.goalHoldsInitially, rfl, rfl⟩ ⟨.goalReached, rfl, rfl⟩

/-- **What the verdict on a plan says.**  A plan of ground actions and records is accepted exactly
if each step is resolved to an action that may be taken in the state which the steps before it lead
to, its static conditions being entailed and its required and forbidden facts as they should be, and
the last state reaches the goal.  A record is resolved to nothing but an instance of a schema of the
problem.  Where the actions among the steps are such instances, too, all steps of an accepted plan
are executed. -/
theorem Proper.accepts_iff (hp : p.Proper)
    (hactions : ∀ a, .action a ∈ steps → a.isProper ∧ a.isGround) :
    ((∃ report, p.simulate steps = .ok report ∧ report.accepted) ↔
      ∃ as t, p.Replays p.initialState steps as t ∧ p.reaches t = .ok true) ∧
    (∀ name args a, p.resolve (.record name args) = .ok a → p.Instantiates a) ∧
    ((∀ a, .action a ∈ steps → ∃ schema ∈ p.actions, ∃ σ, schema.ground σ = .ok a) →
      ∀ report, p.simulate steps = .ok report → report.accepted →
        ∃ as ss t, steps.mapM p.resolve = .ok as ∧ p.Runs p.initialState as ss ∧
        ss.getLast? = some t ∧
          p.reaches t = .ok true) := by
  -- an action that is given is ground, and a record is resolved to a ground instance
  have hconcrete : ∀ step ∈ steps, ∀ a, p.resolve step = .ok a → a.Concrete := by
    intro step hstep a hresolve
    cases step with
    | action b =>
        obtain rfl := Except.ok.inj hresolve
        exact ⟨(hactions _ hstep).1, (hactions _ hstep).2⟩
    | record => exact (hp.instantiates_of_record hresolve).concrete
  refine ⟨hp.simulate_accepted_iff hconcrete, fun _ _ _ => hp.instantiates_of_record, ?_⟩
  intro hown report hreport haccepted
  refine hp.runs_of_simulate ?_ hreport haccepted
  intro step hstep a hresolve
  cases step with
  | action b =>
      obtain rfl := Except.ok.inj hresolve
      exact ⟨(hactions _ hstep).1, hown _ hstep⟩
  | record => exact hp.instantiates_of_record hresolve

/-- A wish: a cake has been eaten, although it is there. -/
def wish : Except Error Action :=
  Worlds.action "Wish" [] [] [] [("Eaten", ["Cake"])] [] []

theorem exists_wish : ∃ p a report, Worlds.haveCake = .ok p ∧ p.Proper ∧
    (∀ b, Step.action b ∈ [Step.action a] → b.isProper ∧ b.isGround) ∧
    (∀ schema ∈ p.actions, schema.name ≠ a.name) ∧ p.simulate [.action a] = .ok report ∧
    report.accepted := by
  obtain ⟨p, hcake, hproper⟩ := exists_haveCake
  have hground : (wish.toOption.map fun a => a.isProper && a.isGround) = some true := by
    decide +kernel
  have hnames : (Worlds.haveCake.toOption.bind fun p => wish.toOption.map fun a =>
      p.actions.all fun schema => schema.name.name != a.name.name) = some true := by
    decide +kernel
  have haccepted : (Worlds.haveCake.toOption.bind fun p => wish.toOption.bind fun a =>
      (p.simulate [.action a]).toOption.map SimulationReport.accepted) = some true := by
    decide +kernel
  obtain ⟨a, hwish, hground⟩ := Option.map_eq_some_iff.mp hground
  rw [hcake, hwish] at hnames haccepted
  obtain ⟨report, hreport, haccepted⟩ := Option.map_eq_some_iff.mp haccepted
  refine ⟨p, a, report, hcake, hproper, ?_, ?_, eq_ok_of_toOption hreport, haccepted⟩
  · intro b hb
    obtain rfl := Step.action.inj (List.mem_singleton.mp hb)
    exact Bool.and_eq_true_iff.mp hground
  · intro schema hschema heq
    have hdiffer := List.all_eq_true.mp (Option.some.inj hnames) schema hschema
    rw [heq, bne_self_eq_false] at hdiffer
    cases hdiffer

/-- The wish may be taken, and leads to the goal. -/
theorem accepts_iff_wish : ∃ p a, Worlds.haveCake = .ok p ∧ p.Proper ∧
    (∀ b, Step.action b ∈ [Step.action a] → b.isProper ∧ b.isGround) ∧
    ∃ as t, p.Replays p.initialState [.action a] as t ∧ p.reaches t = .ok true := by
  obtain ⟨p, a, report, hcake, hproper, hactions, -, hreport, haccepted⟩ := exists_wish
  exact ⟨p, a, hcake, hproper, hactions,
    (hproper.accepts_iff hactions).1.mp ⟨report, hreport, haccepted⟩⟩

/-- Not all steps of an accepted plan are instances of schemas of the problem. -/
theorem not_forall_instantiates :
    ¬∀ (p : Problem) (steps : List Step) (report : SimulationReport), p.Proper →
    (∀ a, Step.action a ∈ steps → a.isProper ∧ a.isGround) → p.simulate steps = .ok report →
    report.accepted →
    ∀ step ∈ steps, ∃ a, p.resolve step = .ok a ∧
    ∃ schema ∈ p.actions, ∃ σ, schema.ground σ = .ok a := by
  intro h
  obtain ⟨p, a, report, -, hproper, hactions, hnames, hreport, haccepted⟩ := exists_wish
  obtain ⟨b, hresolve, schema, hschema, σ, hinstance⟩ :=
    h p [.action a] report hproper hactions hreport haccepted _ List.mem_cons_self
  obtain rfl := Except.ok.inj hresolve
  exact hnames schema hschema (Action.name_of_ground hinstance).symm

end Problem

end HornPlan
