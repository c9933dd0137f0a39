import HornPlan.Proposal
import HornPlan.Proofs.Simulations

/-!
# What becomes of a proposal

A proposed step names an action and its arguments.  An argument that is empty is no name; all others
are names of variables or constants, and with them the step is resolved to an instance of a schema,
or it is refused (`Proper.resolve_cases`).

Whatever a reply says, a plan that is made of it solves the problem (`Proper.solves_of_judge`).
Where the goal is a conjunction, judging a reply fails exactly when the simulation of what it
proposes comes to a step with an empty argument (`Proper.judge_eq_error_iff`).
-/

namespace HornPlan

/-! ## Names -/

namespace Term

variable {name : String} {t : Term}

theorem ofName?_empty : ofName? "" = .error (.expression .emptyConstant) :=
  rfl

theorem exists_ofName? (h : name ≠ "") : ∃ t, ofName? name = .ok t := by
  unfold ofName?
  split
  · rename_i hlowercase
    rw [Variable.ofName?, dif_pos hlowercase]
    exact ⟨_, rfl⟩
  · rename_i hlowercase
    rw [Constant.ofName?, dif_neg h, dif_pos (Bool.eq_false_iff.mpr hlowercase)]
    exact ⟨_, rfl⟩

theorem isProper_of_ofName? (h : ofName? name = .ok t) : t.isProper := by
  unfold ofName? at h
  split at h
  · rcases hread : Variable.ofName? name with _ | x
    · rw [hread] at h
      cases h
    · rw [hread] at h
      obtain rfl := Except.ok.inj h
      rfl
  · rcases hread : Constant.ofName? name with _ | c
    · rw [hread] at h
      cases h
    · rw [hread] at h
      obtain rfl := Except.ok.inj h
      rfl

end Term

namespace Problem

variable {p : Problem} {a : Action} {as : List Action} {args : List Term} {schemas : List Action}
  {goals : List Atom} {reply : String} {plan : Plan} {e : Error}

/-! ## Descriptions -/

/-- All of a proper problem can be described. -/
theorem Proper.isDescribable (hp : p.Proper) : p.isDescribable := by
  have hatoms : ∀ {as : List Atom}, (∀ b ∈ as, b.isProper) → as.all Atom.isPrintable := fun has =>
    List.all_eq_true.mpr fun b hb => Term.isPrintable_of_isProper (has b hb)
  have hrules : p.rules.all Clause.isPrintable := List.all_eq_true.mpr fun r hr => by
    obtain ⟨hantecedents, hconsequent⟩ := Clause.isProper_iff.mp (hp.kb.base.rules r hr).1
    exact Bool.and_eq_true_iff.mpr ⟨hatoms hantecedents, Term.isPrintable_of_isProper hconsequent⟩
  have hparameters : p.actions.all fun a => a.parameters.all fun q => q.toTerm.isPrintable :=
    List.all_eq_true.mpr fun a ha => List.all_eq_true.mpr fun q hq =>
      Term.isPrintable_of_isProper ((Schema.isProper_iff.mp (hp.actions a ha)).2.1 q hq)
  have hactions : p.actions.all fun a => a.atoms.all Atom.isPrintable :=
    List.all_eq_true.mpr fun a ha => hatoms (Schema.isProper_iff.mp (hp.actions a ha)).2.2
  have hgoals : (p.goals?.getD []).all Atom.isPrintable := by
    cases hgoal : p.goal with
    | conjunction goals =>
        rw [goals?, hgoal]
        exact hatoms (hp.goals goals hgoal)
    | test passes =>
        rw [goals?, hgoal]
        rfl
  rw [Problem.isDescribable, hp.initialState.isPrintable, hrules, hparameters, hactions, hgoals]
  rfl

/-! ## Resolving a step -/

/-- Schemas are called until one of them makes an instance, or all of them refuse the arguments. -/
theorem callFirst_cases (hschemas : ∀ schema ∈ schemas, schema.isProper)
    (hargs : ∀ t ∈ args, t.isProper) (reasons : List String) :
    (∃ schema ∈ schemas, ∃ a, schema.call args = .ok a ∧ callFirst args reasons schemas = .ok a) ∨
      ∃ fault, callFirst args reasons schemas = .error (.schema fault) := by
  induction schemas generalizing reasons with
  | nil => exact Or.inr ⟨_, rfl⟩
  | cons schema rest ih =>
      obtain ⟨hschema, hrest⟩ := List.forall_mem_cons.mp hschemas
      rcases hcall : schema.call args with e | a
      · have hnext :
            ∃ reasons', callFirst args reasons (schema :: rest) = callFirst args reasons' rest := by
          rw [callFirst, hcall]
          cases Action.refuses_of_call hschema hargs hcall with
          | schema fault => exact ⟨_, rfl⟩
          | openAction fault => exact ⟨_, rfl⟩
        obtain ⟨reasons', hnext⟩ := hnext
        rw [hnext]
        refine (ih hrest reasons').imp_left ?_
        rintro ⟨other, hmem, a, ha, hfirst⟩
        exact ⟨other, List.mem_cons_of_mem _ hmem, a, ha, hfirst⟩
      · refine Or.inl ⟨schema, List.mem_cons_self, a, hcall, ?_⟩
        rw [callFirst, hcall]

theorem Proper.instantiates_of_call (hp : p.Proper) {schema : Action} (hschema : schema ∈ p.actions)
    (hargs : ∀ t ∈ args, t.isProper) (h : schema.call args = .ok a) : p.Instantiates a := by
  have hproper := hp.actions schema hschema
  obtain ⟨σ, hσ, hσproper, hground⟩ := Action.exists_ground_of_call hproper hargs h
  exact ⟨Action.isProper_of_ground hσ hσproper hproper hground, schema, hschema, σ, hground⟩

/-- The arguments of a proposed step are read as names before an action is looked up. -/
theorem resolve_toStep (step : ProposedStep) :
    p.resolve step.toStep = (step.args.mapM Term.ofName? >>= fun args =>
      match p.actionsNamed (Symbol.ofText? step.name) with
      | [] => .error (.schema (.unknownAction step.name))
      | schemas => callFirst args [] schemas) := by
  change ((step.args.map Json.str).mapM fun arg => Term.named (.foreign (.value arg))) >>= _ = _
  rw [List.mapM_map]
  rfl

/-- **A proposed step with an empty argument is an error.  Any other is resolved to an instance, or
refused because of the schemas.** -/
theorem Proper.resolve_cases (hp : p.Proper) (step : ProposedStep) :
    ("" ∈ step.args ∧ p.resolve step.toStep = .error (.expression .emptyConstant)) ∨
      ("" ∉ step.args ∧ ((∃ a, p.Instantiates a ∧ p.resolve step.toStep = .ok a) ∨
        ∃ fault, p.resolve step.toStep = .error (.schema fault))) := by
  rw [resolve_toStep]
  -- only an empty text cannot be read as a term
  rcases hargs : step.args.mapM Term.ofName? with e | args
  · obtain ⟨name, hname, herror⟩ := exists_of_mapM_eq_error hargs
    by_cases hempty : name = ""
    · subst hempty
      obtain rfl := Except.error.inj (Term.ofName?_empty.symm.trans herror)
      exact Or.inl ⟨hname, rfl⟩
    · obtain ⟨t, ht⟩ := Term.exists_ofName? hempty
      cases herror.symm.trans ht
  · have hread := mapM_eq_ok.mp hargs
    have hproper : ∀ t ∈ args, t.isProper := fun t ht => by
      obtain ⟨name, -, hname⟩ := exists_of_mem_right hread ht
      exact Term.isProper_of_ofName? hname
    refine Or.inr ⟨?_, ?_⟩
    · intro hempty
      obtain ⟨t, -, ht⟩ := exists_of_mem_left hread hempty
      cases Term.ofName?_empty.symm.trans ht
    · rw [ok_bind]
      split
      · exact Or.inr ⟨_, rfl⟩
      · have hnamed : ∀ schema ∈ p.actionsNamed (Symbol.ofText? step.name), schema ∈ p.actions :=
          fun schema hschema => (List.mem_filter.mp hschema).1
        rcases callFirst_cases (fun schema hschema => hp.actions schema (hnamed schema hschema))
            hproper [] with
          ⟨schema, hschema, a, hcall, hfirst⟩ | ⟨fault, hfault⟩
        · exact Or.inl ⟨a, hp.instantiates_of_call (hnamed schema hschema) hproper hcall, hfirst⟩
        · exact Or.inr ⟨fault, hfault⟩

theorem Proper.instantiates_of_resolve (hp : p.Proper) {step : ProposedStep}
    (h : p.resolve step.toStep = .ok a) : p.Instantiates a := by
  rcases hp.resolve_cases step with ⟨-, herror⟩ | ⟨-, ⟨b, hb, hresolve⟩ | ⟨fault, hfault⟩⟩
  · cases h.symm.trans herror
  · obtain rfl := Except.ok.inj (h.symm.trans hresolve)
    exact hb
  · cases h.symm.trans hfault

/-- Where the schemas are not to blame, an empty argument is. -/
theorem Proper.resolve_eq_error_iff (hp : p.Proper) (step : ProposedStep)
    (he : ∀ fault, e ≠ .schema fault) :
    p.resolve step.toStep = .error e ↔ e = .expression .emptyConstant ∧ "" ∈ step.args := by
  rcases hp.resolve_cases step with ⟨hempty, herror⟩ | ⟨hempty, ⟨a, -, hresolve⟩ | ⟨fault, hfault⟩⟩
  · rw [herror]
    exact ⟨fun h => ⟨(Except.error.inj h).symm, hempty⟩, fun h => congrArg Except.error h.1.symm⟩
  · rw [hresolve]
    exact iff_of_false nofun fun h => hempty h.2
  · rw [hfault]
    exact iff_of_false (fun h => he fault (Except.error.inj h).symm) fun h => hempty h.2

theorem Proper.instantiates_of_mem (hp : p.Proper) {proposed : List ProposedStep} :
    ∀ step ∈ proposed.map ProposedStep.toStep, ∀ a, p.resolve step = .ok a → p.Instantiates a := by
  refine List.forall_mem_map.mpr ?_
  intro step _ a ha
  exact hp.instantiates_of_resolve ha

/-! ## Simulating a proposal -/

theorem Proper.runs_of_simulate (hp : p.Proper) {steps : List Step} {report : SimulationReport}
    (hsteps : ∀ step ∈ steps, ∀ a, p.resolve step = .ok a → p.Instantiates a)
    (h : p.simulate steps = .ok report) (haccepted : report.accepted) :
    ∃ as ss t, steps.mapM p.resolve = .ok as ∧ p.Runs p.initialState as ss ∧ ss.getLast? = some t ∧
      p.reaches t = .ok true := by
  rw [simulate] at h
  split at h
  · rename_i hempty
    obtain ⟨reached, hreached, h⟩ := bind_eq_ok.mp h
    cases reached with
    | true =>
        rw [List.isEmpty_iff.mp hempty]
        exact ⟨[], _, p.initialState, rfl, .nil _, rfl, hreached⟩
    | false => exact hp.runs_of_simulateFrom hp.initialState hsteps h haccepted
  · exact hp.runs_of_simulateFrom hp.initialState hsteps h haccepted

theorem Proper.simulate_eq_error_iff (hp : p.Proper) (hgoals : p.goal = .conjunction goals)
    {steps : List Step} (hsteps : ∀ step ∈ steps, ∀ a, p.resolve step = .ok a → p.Instantiates a) :
    p.simulate steps = .error e ↔
      (∀ fault, e ≠ .schema fault) ∧ ∃ step, p.ComesTo p.initialState steps step ∧
        p.resolve step = .error e := by
  rw [← hp.simulateFrom_eq_error_iff hgoals hp.initialState hsteps 1, simulate]
  split
  · rename_i hempty
    obtain ⟨reached, hreached⟩ := hp.exists_reaches hgoals hp.initialState
    rw [List.isEmpty_iff.mp hempty, simulateFrom, hreached]
    cases reached <;> exact iff_of_false (by rintro ⟨⟩) (by rintro ⟨⟩)
  · rfl

/-! ## Judging a reply -/

/-- A reply proposes steps when they are read from it, blanks around it apart. -/
def Proposes (reply : String) (proposed : List ProposedStep) : Prop :=
  parsePlan (String.ofList (Text.trim reply.toList)) = .ok proposed

theorem Proper.judge_cases (hp : p.Proper) (reply : String) :
    (∃ proposed, Proposes reply proposed ∧
      p.judge reply = (do
        let report ← p.simulate (proposed.map ProposedStep.toStep)
        if report.accepted then
          let actions ← (proposed.map ProposedStep.toStep).mapM p.resolve
          return .found (← planFrom p.initialState actions 0)
        else return .notFound (.rejected report.message) 0 none)) ∨
      ((∀ proposed, ¬Proposes reply proposed) ∧
        ∃ fault, p.judge reply = .ok (.notFound (.unreadable (.reply fault)) 0 none)) := by
  unfold judge Proposes
  rw [hp.isDescribable, Bool.not_true, if_neg Bool.false_ne_true]
  rcases parsePlan (String.ofList (Text.trim reply.toList)) with fault | proposed
  · exact Or.inr ⟨nofun, fault, rfl⟩
  · exact Or.inl ⟨proposed, rfl, rfl⟩

/-- A plan that is made of a reply executes the steps that were proposed. -/
theorem Proper.exists_of_judge_found (hp : p.Proper) (h : p.judge reply = .ok (.found plan)) :
    ∃ t, p.Runs p.initialState plan.actions plan.states ∧ plan.states.getLast? = some t ∧
      p.reaches t = .ok true := by
  rcases hp.judge_cases reply with ⟨proposed, -, hjudge⟩ | ⟨-, fault, hjudge⟩
  · obtain ⟨report, hreport, h⟩ := bind_eq_ok.mp (hjudge.symm.trans h)
    split at h
    · rename_i haccepted
      obtain ⟨actions, hactions, h⟩ := bind_eq_ok.mp h
      obtain ⟨found, hfound, h⟩ := bind_eq_ok.mp h
      obtain ⟨later, hlater, hfound⟩ := bind_eq_ok.mp hfound
      obtain ⟨as, ss, t, has, hruns, hlast, hreaches⟩ :=
        hp.runs_of_simulate hp.instantiates_of_mem hreport haccepted
      obtain rfl := Except.ok.inj (hactions.symm.trans has)
      obtain ⟨later', hlater', rfl⟩ := hruns.statesAfter
      obtain rfl := Except.ok.inj (hlater.symm.trans hlater')
      obtain rfl := PlanResult.found.inj (Except.ok.inj h)
      obtain rfl := Except.ok.inj hfound
      exact ⟨t, hruns, hlast, hreaches⟩
    · cases Except.ok.inj h
  · cases hjudge.symm.trans h

/-- **Whatever a reply says, a plan that is made of it solves the problem.** -/
theorem Proper.solves_of_judge (hp : p.Proper) (h : p.judge reply = .ok (.found plan)) :
    p.Solves plan.actions.length plan := by
  obtain ⟨t, hruns, hlast, hreaches⟩ := hp.exists_of_judge_found h
  exact hruns.solves hlast hreaches le_rfl

/-- A reply with prose around a fence. -/
def fencedReply : String :=
  "There is one cake.\n```json\n\x7b\"plan\": [\x7b\"name\": \"Eat\", \"args\": [\"Cake\"]\x7d, "
    ++ "\x7b\"name\": \"Bake\", \"args\": [\"Cake\"]\x7d]\x7d\n```\nEnjoy."

/-- The cake is eaten and baked again. -/
theorem solves_of_judge_haveCake : ∃ p plan, Worlds.haveCake = .ok p ∧ p.Proper ∧
    p.judge fencedReply = .ok (.found plan) ∧ p.Solves plan.actions.length plan := by
  obtain ⟨p, hcake, hproper⟩ := exists_haveCake
  have hfound : (Worlds.haveCake.toOption.bind fun p =>
      (p.judge fencedReply).toOption.bind PlanResult.plan?).isSome := by
    decide +kernel
  rw [hcake] at hfound
  obtain ⟨plan, hplan⟩ := PlanResult.exists_of_plan?_isSome hfound
  exact ⟨p, plan, hcake, hproper, hplan, hproper.solves_of_judge hplan⟩

/-- **Judging a reply fails only at an empty argument** of a step that executing the proposal comes
to. -/
theorem Proper.judge_eq_error_iff (hp : p.Proper) (hgoals : p.goal = .conjunction goals) :
    p.judge reply = .error e ↔ e = .expression .emptyConstant ∧
      ∃ proposed, Proposes reply proposed ∧ ∃ step ∈ proposed, "" ∈ step.args ∧
        p.ComesTo p.initialState (proposed.map ProposedStep.toStep) step.toStep := by
  rcases hp.judge_cases reply with ⟨proposed, hproposed, hjudge⟩ | ⟨hnone, fault, hjudge⟩
  · have hsimulate : p.judge reply = .error e ↔
        p.simulate (proposed.map ProposedStep.toStep) = .error e := by
      rw [hjudge]
      rcases hreport : p.simulate (proposed.map ProposedStep.toStep) with error | report
      · rw [error_bind, Except.error.injEq, Except.error.injEq]
      · refine iff_of_false ?_ nofun
        rw [ok_bind]
        split
        · -- what was executed in the simulation is resolved and executed again
          rename_i haccepted
          obtain ⟨as, ss, t, has, hruns, -⟩ :=
            hp.runs_of_simulate hp.instantiates_of_mem hreport haccepted
          obtain ⟨later, hlater, -⟩ := hruns.statesAfter
          rw [has, ok_bind, planFrom, hlater]
          nofun
        · nofun
    -- a simulation fails at a step that cannot be resolved, and not because of a schema
    rw [hsimulate, hp.simulate_eq_error_iff hgoals hp.instantiates_of_mem]
    constructor
    · rintro ⟨he, step, hcomes, herror⟩
      obtain ⟨named, hnamed, rfl⟩ := List.mem_map.mp hcomes.mem
      obtain ⟨rfl, hempty⟩ := (hp.resolve_eq_error_iff named he).mp herror
      exact ⟨rfl, proposed, hproposed, named, hnamed, hempty, hcomes⟩
    · rintro ⟨rfl, others, hothers, step, -, hempty, hcomes⟩
      obtain rfl := Except.ok.inj (hothers.symm.trans hproposed)
      have he : ∀ fault, Error.expression .emptyConstant ≠ .schema fault := nofun
      exact ⟨he, step.toStep, hcomes, (hp.resolve_eq_error_iff step he).mpr ⟨rfl, hempty⟩⟩
  · rw [hjudge]
    refine iff_of_false nofun ?_
    rintro ⟨-, proposed, hproposed, -⟩
    exact hnone proposed hproposed

/-- A reply with an empty argument in its second step. -/
def replyWithoutName : String :=
  "\x7b\"plan\": [\x7b\"name\": \"Eat\", \"args\": [\"Cake\"]\x7d, "
    ++ "\x7b\"name\": \"Bake\", \"args\": [\"\"]\x7d]\x7d"

theorem exists_judge_eq_error : ∃ p goals e, Worlds.haveCake = .ok p ∧ p.Proper ∧
    p.goal = .conjunction goals ∧ p.judge replyWithoutName = .error e := by
  obtain ⟨p, goals, hcake, hproper, hgoals⟩ := exists_haveCake_conjunction
  have hfails : (Worlds.haveCake.toOption.map fun p =>
      (p.judge replyWithoutName).toOption.isNone) = some true := by
    decide +kernel
  obtain ⟨e, hjudge⟩ := exists_error_of_isNone hcake hfails
  exact ⟨p, goals, e, hcake, hproper, hgoals, hjudge⟩

/-- After the cake was eaten, what to bake has no name. -/
theorem judge_eq_error_iff_haveCake : ∃ p goals e, Worlds.haveCake = .ok p ∧ p.Proper ∧
    p.goal = .conjunction goals ∧ p.judge replyWithoutName = .error e ∧
    e = .expression .emptyConstant ∧
    ∃ proposed, Proposes replyWithoutName proposed ∧ ∃ step ∈ proposed, "" ∈ step.args ∧
      p.ComesTo p.initialState (proposed.map ProposedStep.toStep) step.toStep := by
  obtain ⟨p, goals, e, hcake, hproper, hgoals, herror⟩ := exists_judge_eq_error
  exact ⟨p, goals, e, hcake, hproper, hgoals, herror, (hproper.judge_eq_error_iff hgoals).mp herror⟩

/-- A reply is not always answered. -/
theorem not_forall_exists_judge : ¬∀ (p : Problem) (reply : String), p.Proper →
    (∃ goals, p.goal = .conjunction goals) → ∃ answer, p.judge reply = .ok answer := by
  intro h
  obtain ⟨p, goals, e, -, hproper, hgoals, herror⟩ := exists_judge_eq_error
  obtain ⟨answer, hanswer⟩ := h p replyWithoutName hproper ⟨goals, hgoals⟩
  cases hanswer.symm.trans herror

end Problem

end HornPlan
