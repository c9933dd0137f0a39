import HornPlan.Proofs.Equations
import HornPlan.Proofs.Instances

/-!
# Calls of actions

A call binds the parameters of an action to arguments by unifying two signatures, so that what the
action is ground under may bind variables to variables: it is free of loops, and no more is known of
it.

There are two ways for a call with proper arguments to fail, and both of them are *refusals*
(`Action.refuses_of_call`): the arguments do not fit the schema, or they leave a parameter open.  A
call that succeeds gives a ground instance of the schema (`Action.exists_ground_of_call`).
-/

namespace HornPlan

/-- The error that an action cannot be made from a schema and arguments, or that it is left open. -/
inductive Error.Refuses : Error → Prop
  | schema (fault : SchemaFault) : Refuses (.schema fault)
  | openAction (fault : OpenActionFault) : Refuses (.openAction fault)

/-! ## Faults of schemas -/

theorem Term.isShowable_of_isProper {t : Term} (ht : t.isProper) : t.isShowable := by
  cases t with
  | app f args => exact isPrintable_of_isProper ht
  | _ => rfl

theorem Substitution.IsProper.isPrintable {σ : Substitution} (hσ : σ.IsProper) : σ.isPrintable :=
  List.all_eq_true.mpr fun binding hbinding => Term.isPrintable_of_isProper (hσ binding hbinding)

namespace Schema

theorem error_eq_of_atomFault? {f : Symbol} {ps : List Variable} {seen : List (Symbol × Nat)}
    {as : List Atom} (has : ∀ b ∈ as, b.isProper) {fault : SchemaFault}
    (h : atomFault? f ps seen as = some fault) : fault.error = .schema fault := by
  induction as generalizing seen with
  | nil => cases h
  | cons b as ih =>
      obtain ⟨hb, hrest⟩ := List.forall_mem_cons.mp has
      rw [atomFault?] at h
      split_ifs at h
      · obtain rfl := Option.some.inj h
        rfl
      · obtain rfl := Option.some.inj h
        exact if_pos (Term.isPrintable_of_isProper hb)
      · exact ih hrest h

theorem exists_of_toAction?_eq_error {s : Schema} (hs : s.distinct.isProper) {e : Error}
    (h : s.toAction? = .error e) : ∃ fault, e = .schema fault := by
  unfold toAction? at h
  split at h
  · cases h
  · rename_i fault hfault
    obtain rfl := Except.error.inj h
    refine ⟨fault, ?_⟩
    unfold fault? at hfault
    split_ifs at hfault
    · exact error_eq_of_atomFault? (isProper_iff.mp hs).2.2 hfault
    · obtain rfl := Option.some.inj hfault
      rfl

end Schema

/-- What cannot be a parameter among proper terms is compound, and the first such term is named. -/
theorem exists_of_parameters?_eq_error {f : Symbol} {ts : List Term} (hts : ∀ t ∈ ts, t.isProper)
    {e : Error} (h : parameters? f ts = .error e) :
    ∃ g args, .app g args ∈ ts ∧ e = .schema (.badParameter f (.app g args)) := by
  unfold parameters? at h
  split at h
  · rename_i bad hbad
    have hmem := List.mem_of_find?_eq_some hbad
    have hnone := List.find?_some hbad
    have hshown : (SchemaFault.badParameter f bad).error = .schema (.badParameter f bad) :=
      if_pos (Term.isShowable_of_isProper (hts bad hmem))
    obtain rfl := Except.error.inj h
    cases bad with
    | app g args => exact ⟨g, args, hmem, hshown⟩
    | foreign => cases hts _ hmem
    | _ => cases hnone
  · rename_i hall
    obtain ⟨t, ht, hfailed⟩ := exists_of_mapM_eq_error h
    have hparameter := List.find?_eq_none.mp hall t ht
    cases t with
    | app g args => exact absurd rfl hparameter
    | foreign => cases hts _ ht
    | _ => cases hfailed

namespace Action

variable {a g : Action} {σ : Substitution} {h : Variable → Term} {args : List Term} {e : Error}

/-! ## Grounding under a substitution that is free of loops -/

theorem exists_of_instantiated?_eq_error (ha : a.isProper) (hvalues : ∀ x, (h x).isProper)
    (hfailed : a.instantiated? h = .error e) : ∃ fault, e = .schema fault := by
  rcases bind_eq_error.mp hfailed with hparameters | ⟨ps, hps, haction⟩
  · obtain ⟨_, _, -, rfl⟩ := exists_of_parameters?_eq_error (List.forall_mem_map.mpr fun p hp =>
      Term.isProper_bind.mpr ⟨(Schema.isProper_iff.mp ha).2.1 p hp, fun x _ => hvalues x⟩)
        hparameters
    exact ⟨_, rfl⟩
  · refine Schema.exists_of_toAction?_eq_error ?_ haction
    have hinstance : a.IsInstance h (Schema.distinct ⟨a.name, ps, a.requires.map (·.bind h),
        a.forbids.map (·.bind h), a.adds.map (·.bind h), a.deletes.map (·.bind h),
        a.static.map (·.bind h)⟩) :=
          ⟨rfl, Schema.toTerm_of_parameters? hps, rfl, rfl, rfl, rfl, rfl⟩
    exact hinstance.isProper ha hvalues

/-- Grounding fails with a refusal where there is no loop. -/
theorem refuses_of_ground (hσ : σ.Loopfree) (hproper : σ.IsProper) (ha : a.isProper)
    (hfailed : a.ground σ = .error e) : e.Refuses := by
  rw [ground_eq hσ.triangular hproper ha] at hfailed
  rcases bind_eq_error.mp hfailed with hinstantiated | ⟨g, -, hopen⟩
  · obtain ⟨fault, rfl⟩ := exists_of_instantiated?_eq_error ha
      (fun x => Substitution.isProper_apply hproper rfl) hinstantiated
    exact .schema fault
  · split at hopen
    · cases hopen
    · obtain rfl := Except.error.inj hopen
      rw [Error.printing, if_pos hproper.isPrintable]
      exact .openAction _

theorem isProper_of_ground (hσ : σ.Loopfree) (hproper : σ.IsProper) (ha : a.isProper)
    (hg : a.ground σ = .ok g) : g.isProper := by
  obtain ⟨hinstantiated, -⟩ := (ground_eq_ok_of_triangular hσ.triangular hproper ha).mp hg
  exact (isInstance_of_instantiated? hinstantiated).isProper ha
    fun x => Substitution.isProper_apply hproper rfl

/-! ## Calling -/

theorem isProper_of_args (ha : a.isProper) (hargs : ∀ t ∈ args, t.isProper) :
    Atom.isProper ⟨a.name, args⟩ :=
  Atom.isProper_iff.mpr ⟨(Schema.isProper_iff.mp ha).1, hargs⟩

theorem mapM_named_eq_ok (hargs : ∀ t ∈ args, t.isProper) : args.mapM Term.named = .ok args := by
  have hnamed : args.mapM Term.named = .ok (args.map id) := mapM_eq_ok_map fun t ht => by
    cases t with
    | foreign => cases hargs _ ht
    | _ => rfl
  rwa [List.map_id] at hnamed

/-- Unifying the signature with the arguments is tried once there are as many of them as
parameters. -/
theorem call_eq (ha : a.isProper) (hargs : ∀ t ∈ args, t.isProper) : a.call args =
    if args.length ≠ a.parameters.length then
      .error (.schema (.argumentCount a.name a.parameters.length args.length))
    else match (∅ : Substitution).unifyAtoms? a.signature ⟨a.name, args⟩ with
      | none => .error (.schema (.mismatch (Atom.text ⟨a.name, args⟩) a.text))
      | some σ => a.ground σ := by
  have hgiven := isProper_of_args ha hargs
  have hempty := Substitution.triangular_empty.loopfree
  -- neither unification nor the message of a mismatch fails on proper terms
  have hunify : (∅ : Substitution).tryUnify a.signature.toTerm (Atom.toTerm ⟨a.name, args⟩)
      = .ok ((∅ : Substitution).unifyAtoms? a.signature ⟨a.name, args⟩) :=
    hempty.tryUnify_eq nofun (isProper_signature ha) hgiven
  have hprintable : (Atom.isPrintable ⟨a.name, args⟩ && a.isPrintable) = true :=
    Bool.and_eq_true_iff.mpr ⟨Term.isPrintable_of_isProper hgiven, isPrintable_of_isProper ha⟩
  rw [call, mapM_named_eq_ok hargs, ok_bind]
  by_cases hlength : args.length = a.parameters.length
  · rw [if_neg (not_not.mpr hlength), if_neg (not_not.mpr hlength), build?_eq_ok hargs a.name,
      ok_bind]
    change (∅ : Substitution).tryUnify _ _ >>= _ = _
    rw [hunify, ok_bind]
    cases (∅ : Substitution).unifyAtoms? a.signature ⟨a.name, args⟩ with
    | none =>
        dsimp only
        rw [hprintable]
        rfl
    | some σ => rfl
  · rw [if_pos hlength, if_pos hlength]
    rfl

theorem solution_of_unifyAtoms? (ha : a.isProper) (hargs : ∀ t ∈ args, t.isProper)
    (hunify : (∅ : Substitution).unifyAtoms? a.signature ⟨a.name, args⟩ = some σ) :
    (∅ : Substitution).Solution [(a.signature.toTerm, Atom.toTerm ⟨a.name, args⟩)] σ := by
  have houtcome :=
    Substitution.triangular_empty.loopfree.isOutcome_unify? nofun (isProper_signature ha)
    (isProper_of_args ha hargs)
  change (∅ : Substitution).IsOutcome _ ((∅ : Substitution).unifyAtoms? _ _) at houtcome
  rw [hunify] at houtcome
  exact houtcome

/-- **A call that fails refuses its arguments.** -/
theorem refuses_of_call (ha : a.isProper) (hargs : ∀ t ∈ args, t.isProper)
    (hfailed : a.call args = .error e) : e.Refuses := by
  rw [call_eq ha hargs] at hfailed
  split at hfailed
  · obtain rfl := Except.error.inj hfailed
    exact .schema _
  · split at hfailed
    · obtain rfl := Except.error.inj hfailed
      exact .schema _
    · rename_i σ hunify
      have hσ := solution_of_unifyAtoms? ha hargs hunify
      exact refuses_of_ground hσ.loopfree hσ.proper ha hfailed

/-- **A call that succeeds grounds the action** under a substitution that is free of loops. -/
theorem exists_ground_of_call (ha : a.isProper) (hargs : ∀ t ∈ args, t.isProper)
    (hg : a.call args = .ok g) :
    ∃ σ : Substitution, σ.Loopfree ∧ σ.IsProper ∧ a.ground σ = .ok g := by
  rw [call_eq ha hargs] at hg
  split at hg
  · cases hg
  · split at hg
    · cases hg
    · rename_i σ hunify
      have hσ := solution_of_unifyAtoms? ha hargs hunify
      exact ⟨σ, hσ.loopfree, hσ.proper, hg⟩

end Action

end HornPlan
