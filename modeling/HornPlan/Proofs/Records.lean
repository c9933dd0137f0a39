import HornPlan.Proofs.Executability
import HornPlan.Proofs.Proposals

/-!
# Plans as records

An action of a plan can be written down as a record: its name, and the texts of its parameters.  A
simulation reads the record by calling the schemas of that name one after the other, and takes what
the first of them makes that accepts the arguments (`Problem.firstMade`).  It does not look at the
state in which the step is to be executed.

So a record is always resolved (`Proper.resolve_record`): the schema that made the action accepts
its parameters, at the latest.  But where two schemas share a name, the first one may make another
action of the same parameters.  The records of a plan are then simulated as a plan of these other
actions (`Proper.simulate_records`), which need not be executable where those of the plan are
(`not_forall_simulate_records`).
-/

namespace HornPlan

/-- The record of an action: its name, and the texts of its parameters. -/
def Action.record (a : Action) : Step :=
  .named a.name.name (a.parameters.map fun q => q.toTerm.text)

theorem Term.ofName?_text_const (c : Constant) :
    Term.ofName? (Term.const c).text = .ok (.const c) := by
  have hnot : ¬Text.startsLowercase c.name = true := Bool.eq_false_iff.mp c.notLowercase
  rw [Term.text, Term.ofName?, if_neg hnot, Constant.ofName?, dif_neg c.nonempty,
    dif_pos c.notLowercase]
  rfl

theorem Symbol.ofText?_name {f : Symbol} (h : f.isText) : Symbol.ofText? f.name = some f := by
  cases f with
  | text name hnonempty => exact dif_neg hnonempty
  | value => cases h

namespace Problem

variable {p : Problem} {s : State} {a g : Action} {args : List Term} {schemas : List Action}
  {steps steps' : List Step}

/-! ## The schemas of a name -/

/-- A schema of the problem makes an action of constants. -/
def Makes (p : Problem) (a : Action) : Prop :=
  ∃ schema ∈ p.actions, ∃ cs : List Constant, schema.call (cs.map .const) = .ok a

/-- What the first schema of the name of an action makes of its parameters that accepts them. -/
def firstMade (p : Problem) (a : Action) : Option Action :=
  (p.actionsNamed (some a.name)).findSome? fun schema =>
    (schema.call (a.parameters.map SimpleTerm.toTerm)).toOption

/-- **Of the schemas that are called, the first one that accepts the arguments counts.** -/
theorem callFirst_eq_ok (hschemas : ∀ schema ∈ schemas, schema.isProper)
    (hargs : ∀ t ∈ args, t.isProper)
    (h : schemas.findSome? (fun schema => (schema.call args).toOption) = some g)
    (reasons : List String) :
    callFirst args reasons schemas = .ok g := by
  induction schemas generalizing reasons with
  | nil => cases h
  | cons schema rest ih =>
      obtain ⟨hschema, hrest⟩ := List.forall_mem_cons.mp hschemas
      rw [List.findSome?_cons] at h
      rw [callFirst]
      cases hcall : schema.call args with
      | ok made =>
          rw [hcall] at h
          exact congrArg Except.ok (Option.some.inj h)
      | error e =>
          rw [hcall] at h
          cases Action.refuses_of_call hschema hargs hcall with
          | schema fault => exact ih hrest h _
          | openAction fault => exact ih hrest h _

theorem Proper.of_call (hp : p.Proper) {schema : Action} (hschema : schema ∈ p.actions)
    {cs : List Constant} (hcall : schema.call (cs.map .const) = .ok a) :
    a.name = schema.name ∧ a.parameters.map SimpleTerm.toTerm = cs.map .const := by
  have hproper := hp.actions schema hschema
  obtain ⟨σ, hσ, hparameters, hground⟩ := (Action.call_eq_ok hproper).mp hcall
  obtain ⟨hinstance, -⟩ := Action.isInstance_of_ground hσ hproper hground
  refine ⟨hinstance.name, ?_⟩
  rw [hinstance.parameters, ← hparameters]
  exact List.map_congr_left fun q _ => (hσ.apply_eq q.toTerm).symm

/-- **The record of an action that a schema makes is resolved**, to what the first schema makes that
accepts its parameters. -/
theorem Proper.resolve_record (hp : p.Proper) (ha : p.Makes a) :
    ∃ g, p.firstMade a = some g ∧ p.Instantiates g ∧ p.resolve a.record = .ok g := by
  obtain ⟨schema, hschema, cs, hcall⟩ := ha
  obtain ⟨hname, hparameters⟩ := hp.of_call hschema hcall
  have htext : a.name.isText := hname ▸ (Schema.isProper_iff.mp (hp.actions schema hschema)).1
  have hargs : ∀ t ∈ a.parameters.map SimpleTerm.toTerm, t.isProper := by
    rw [hparameters]
    exact List.forall_mem_map.mpr fun c _ => rfl
  have hnamed : ∀ other ∈ p.actionsNamed (some a.name), other ∈ p.actions := fun other hother =>
    (List.mem_filter.mp hother).1
  have hmem : schema ∈ p.actionsNamed (some a.name) := by
    refine List.mem_filter.mpr ⟨hschema, ?_⟩
    rw [← hname]
    exact (Symbol.beq_iff_eq_of_isText (Or.inl htext)).mpr rfl
  have haccepts : ((schema.call (a.parameters.map SimpleTerm.toTerm)).toOption).isSome := by
    rw [hparameters, hcall]
    rfl
  have hmade : (p.firstMade a).isSome := List.findSome?_isSome_iff.mpr ⟨schema, hmem, haccepts⟩
  obtain ⟨g, hg⟩ := Option.isSome_iff_exists.mp hmade
  refine ⟨g, hg, ?_, ?_⟩
  · obtain ⟨first, hfirst, hmade⟩ := List.exists_of_findSome?_eq_some hg
    exact hp.instantiates_of_call (hnamed first hfirst) hargs (eq_ok_of_toOption hmade)
  · -- the texts of the parameters are read as the constants that they are
    have hread : (a.parameters.map fun q => q.toTerm.text).mapM Term.ofName?
        = .ok (a.parameters.map SimpleTerm.toTerm) := by
      have htexts :
          (a.parameters.map fun q => q.toTerm.text) = cs.map fun c => (Term.const c).text := by
        have hmap := congrArg (List.map Term.text) hparameters
        rwa [List.map_map, List.map_map] at hmap
      rw [htexts, hparameters, List.mapM_map]
      exact mapM_eq_ok_map fun c _ => Term.ofName?_text_const c
    have hresolve := p.resolve_toStep ⟨a.name.name, a.parameters.map fun q => q.toTerm.text⟩
    rw [hread, Symbol.ofText?_name htext, ok_bind] at hresolve
    refine Eq.trans hresolve ?_
    split
    · rename_i hnone
      rw [hnone] at hmem
      exact absurd hmem List.not_mem_nil
    · exact callFirst_eq_ok (fun other hother => hp.actions other (hnamed other hother)) hargs hg []

/-! ## Steps that stand for the same actions -/

theorem simulateFrom_congr
    (h : List.Forall₂ (fun step step' => p.resolve step = p.resolve step') steps steps')
    (index : Nat) (s : State) : p.simulateFrom index s steps = p.simulateFrom index s steps' := by
  induction h generalizing index s with
  | nil => rfl
  | cons heq _ ih =>
      rw [simulateFrom, simulateFrom, heq]
      simp only [ih]

theorem simulate_congr
    (h : List.Forall₂ (fun step step' => p.resolve step = p.resolve step') steps steps') :
    p.simulate steps = p.simulate steps' := by
  have hempty : steps.isEmpty = steps'.isEmpty := by cases h <;> rfl
  rw [simulate, simulate, hempty, simulateFrom_congr h]

/-! ## The records of a plan -/

theorem Leads.makes {t : State} {as : List Action} (h : p.Leads s as t) (hp : p.Proper)
    (hs : s.Proper) :
    ∀ a ∈ as, p.Makes a := by
  induction h with
  | nil => exact fun a ha => absurd ha List.not_mem_nil
  | cons hl hmem _ ih =>
      obtain ⟨schema, hschema, entailed, σ, -, hσ⟩ := hp.groundedAt_of_mem_successors hs hl hmem
      exact List.forall_mem_cons.mpr ⟨⟨schema, hschema, hσ.exists_call (hp.actions schema hschema)⟩,
        ih (hp.successor hs hl hmem)⟩

theorem Proper.exists_firstMade (hp : p.Proper) {as : List Action} (has : ∀ a ∈ as, p.Makes a) :
    ∃ gs, List.Forall₂ (fun a g => p.firstMade a = some g ∧ p.resolve a.record = .ok g) as gs := by
  induction as with
  | nil => exact ⟨[], .nil⟩
  | cons a as ih =>
      obtain ⟨ha, hrest⟩ := List.forall_mem_cons.mp has
      obtain ⟨g, hg, -, hresolve⟩ := hp.resolve_record ha
      obtain ⟨gs, hgs⟩ := ih hrest
      exact ⟨g :: gs, .cons ⟨hg, hresolve⟩ hgs⟩

/-- Where no schema of its name makes another action of its parameters, an action is made of
them. -/
theorem eq_of_firstMade (h : ∀ schema ∈ p.actionsNamed (some a.name), ∀ made,
    schema.call (a.parameters.map SimpleTerm.toTerm) = .ok made → made = a)
      (hg : p.firstMade a = some g) : g = a := by
  obtain ⟨schema, hschema, hmade⟩ := List.exists_of_findSome?_eq_some hg
  exact h schema hschema g (eq_ok_of_toOption hmade)

/-- **What becomes of a plan that is written down as records.**  A simulation that comes to the
record of an action made by a schema executes the action that the first schema of the name makes of
its parameters, or it rejects the plan because this action cannot be executed; it rejects no record
for another reason.  The records of a plan that is found are simulated as the actions that they are
resolved to.  The plan is accepted where these are its own, as they are where no other action is
made of the name and the parameters of one of them. -/
theorem Proper.simulate_records (hp : p.Proper) {request : Request} {strategy : Strategy} {b : Nat}
    {plan : Plan} (hbound : request.bound = .whole b)
    (hplan : (p.plan request strategy).answer = .ok (.found plan)) :
    (∀ s : State, s.Proper → ∀ a, p.Makes a → ∃ g, p.firstMade a = some g ∧ ∀ index rest,
      (p.Executes s g (g.result s) ∧
        p.simulateFrom index s (a.record :: rest) = p.simulateFrom (index + 1) (g.result s) rest) ∨
      ((∀ t, ¬p.Executes s g t) ∧
        ∃ report, p.simulateFrom index s (a.record :: rest) = .ok report ∧
        report.accepted = false)) ∧
    (∀ a ∈ plan.actions, p.Makes a) ∧
    ∃ gs, List.Forall₂ (fun a g => p.firstMade a = some g) plan.actions gs ∧
      p.simulate (plan.actions.map Action.record) = p.simulate (gs.map .action) ∧
      (gs = plan.actions →
        ∃ report, p.simulate (plan.actions.map Action.record) = .ok report ∧ report.accepted) ∧
      ((∀ a ∈ plan.actions, ∀ schema ∈ p.actionsNamed (some a.name), ∀ made,
        schema.call (a.parameters.map SimpleTerm.toTerm) = .ok made → made = a) →
        gs = plan.actions) := by
  obtain ⟨last, memory, node, rest, memory', hsteps, htakes, -, hactions, -⟩ :=
    hp.exists_of_plan_found hbound hplan
  obtain ⟨hsound, -⟩ := Search.sound_of_continues hsteps
  have hmakes : ∀ a ∈ plan.actions, p.Makes a := by
    rw [hactions]
    exact (hsound.leads node htakes.mem).makes hp hp.initialState
  obtain ⟨gs, hgs⟩ := hp.exists_firstMade hmakes
  -- each record is resolved as the action that the first schema makes
  have hresolved : List.Forall₂ (fun step step' => p.resolve step = p.resolve step')
      (plan.actions.map Action.record) (gs.map .action) := by
    rw [List.forall₂_map_left_iff, List.forall₂_map_right_iff]
    exact hgs.imp fun a g h => h.2
  have hsame := simulate_congr hresolved
  refine ⟨?_, hmakes, gs, hgs.imp fun a g h => h.1, hsame, ?_, ?_⟩
  · intro s hs a ha
    obtain ⟨g, hg, hinstance, hresolve⟩ := hp.resolve_record ha
    exact ⟨g, hg, fun index rest => hp.simulateFrom_cons_cases hs hresolve hinstance index rest⟩
  · rintro rfl
    rw [hsame]
    exact (hp.solves_of_plan hbound hplan).accepted
  · intro hunique
    have hmembers :
        List.Forall₂
        (fun a g => a ∈ plan.actions ∧ p.firstMade a = some g ∧ p.resolve a.record = .ok g)
        plan.actions gs := (List.forall₂_and_left _ _).mpr ⟨fun _ h => h, hgs⟩
    have heq : List.Forall₂ Eq plan.actions gs := hmembers.imp fun a g h =>
      (eq_of_firstMade (hunique a h.1) h.2.1).symm
    rw [List.forall₂_eq_eq_eq] at heq
    exact heq.symm

/-- The cake is eaten and baked again, also as the records say. -/
theorem simulate_records_haveCake : ∃ p plan, Worlds.haveCake = .ok p ∧ p.Proper ∧
    (p.plan ⟨.whole 3, .whole 100, .ok false, false⟩
      (StrategyName.breadthFirst.strategy p [])).answer
      = .ok (.found plan) ∧
    ∃ gs, List.Forall₂ (fun a g => p.firstMade a = some g) plan.actions gs ∧
      p.simulate (plan.actions.map Action.record) = p.simulate (gs.map .action) := by
  obtain ⟨p, hcake, hproper⟩ := exists_haveCake
  have hfound :
      (Worlds.haveCake.toOption.bind fun p => (p.plan ⟨.whole 3, .whole 100, .ok false, false⟩
      (StrategyName.breadthFirst.strategy p [])).answer.toOption.bind PlanResult.plan?).isSome := by
    decide +kernel
  rw [hcake] at hfound
  obtain ⟨plan, hplan⟩ := PlanResult.exists_of_plan?_isSome hfound
  obtain ⟨-, -, gs, hgs, hsame, -⟩ := hproper.simulate_records (b := 3) rfl hplan
  exact ⟨p, plan, hcake, hproper, hplan, gs, hgs, hsame⟩

/-- A door is opened with a key, or by hand, and there is no key. -/
def frontDoor : Except Error Problem := do
  let unlock ← Worlds.action "Open" ["Front"] [("Key", ["Front"])] [] [("Opened", ["Front"])] [] []
  let push ← Worlds.action "Open" ["Front"] [("Door", ["Front"])] [] [("Opened", ["Front"])] [] []
  make? (.str "front_door") (← Worlds.facts [("Door", ["Front"])]) [.inl unlock, .inl push]
    (← Worlds.goal [("Opened", ["Front"])])

theorem exists_frontDoor : ∃ p plan report, frontDoor = .ok p ∧ p.Proper ∧
    (p.plan ⟨.whole 1, .whole 100, .ok false, false⟩
      (StrategyName.breadthFirst.strategy p [])).answer
      = .ok (.found plan) ∧
    p.simulate (plan.actions.map Action.record) = .ok report ∧ report.accepted = false := by
  obtain ⟨p, hdoor, hproper⟩ : ∃ p, frontDoor = .ok p ∧ p.Proper :=
    exists_ok_of_isProper (by decide +kernel)
  have hfound : (frontDoor.toOption.bind fun p => (p.plan ⟨.whole 1, .whole 100, .ok false, false⟩
      (StrategyName.breadthFirst.strategy p [])).answer.toOption.bind PlanResult.plan?).isSome := by
    decide +kernel
  have hrejected :
      (frontDoor.toOption.bind fun p =>
        (p.plan ⟨.whole 1, .whole 100, .ok false, false⟩
          (StrategyName.breadthFirst.strategy p [])).answer.toOption.bind fun answer =>
        answer.plan?.bind fun plan =>
        (p.simulate (plan.actions.map Action.record)).toOption.map SimulationReport.accepted) =
      some false := by
    decide +kernel
  rw [hdoor] at hfound hrejected
  obtain ⟨plan, hplan⟩ := PlanResult.exists_of_plan?_isSome hfound
  change (Except.toOption (p.plan _ _).answer).bind _ = some false at hrejected
  rw [hplan] at hrejected
  obtain ⟨report, hreport, haccepted⟩ := Option.map_eq_some_iff.mp hrejected
  exact ⟨p, plan, report, hdoor, hproper, hplan, eq_ok_of_toOption hreport, haccepted⟩

/-- The records of a plan are not always accepted: the door is to be opened with the key. -/
theorem not_forall_simulate_records : ¬∀ (p : Problem) (request : Request) (strategy : Strategy)
    (b : Nat) (plan : Plan),
    p.Proper → request.bound = .whole b → (p.plan request strategy).answer = .ok (.found plan) →
    ∃ report, p.simulate (plan.actions.map Action.record) = .ok report ∧ report.accepted := by
  intro h
  obtain ⟨p, plan, report, -, hproper, hplan, hreport, hrejected⟩ := exists_frontDoor
  obtain ⟨other, hother, haccepted⟩ := h p _ _ 1 plan hproper rfl hplan
  obtain rfl := Except.ok.inj (hreport.symm.trans hother)
  cases hrejected.symm.trans haccepted

end Problem

end HornPlan
