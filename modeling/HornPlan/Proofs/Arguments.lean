import HornPlan.Proofs.FlatFacts

/-!
# Arguments in the place of parameters

Calling an action is meant to put the arguments in the place of the parameters, one after the other
(`positional`), and to refuse whatever is not a constant (`Positional`).  What it does is to unify
the signature with the arguments, and the variables of both are in one name space.  So a variable
among the arguments is an unknown to be solved for, like a parameter:

* an assignment *fits* when it makes each parameter and the argument opposite to it equal (`Fits`);
* a call without a fitting assignment is refused as ill-formed, and any other call is that of a most
  general one (`call_spec`);
* hence a call succeeds when all fitting assignments agree on the variables of the schema and make
  them constants (`call_eq_ok_iff`), which they may do although there is a variable among the
  arguments.

It is as it is meant to be where the arguments have no variable of the schema, and no variable
stands opposite to a constant (`Apart`): then putting the arguments in place fits, and a variable
among them would be the value of a parameter (`Apart.call_eq_ok_iff`).
-/

namespace HornPlan.Action

variable {a g : Action} {args : List Term} {h k : Variable → Term} {e : Error}

/-! ## Assignments that fit -/

/-- An assignment makes each parameter equal to the argument opposite to it. -/
def Fits (a : Action) (args : List Term) (h : Variable → Term) : Prop :=
  (a.parameters.map fun p => p.toTerm.bind h) = args.map (·.bind h)

theorem unifies_iff_fits :
    Unifies h [(a.signature.toTerm, Atom.toTerm ⟨a.name, args⟩)] ↔ a.Fits args h := by
  rw [Substitution.unifies_atoms, Fits, Schema.signature, Atom.bind, Atom.bind, Atom.mk.injEq,
    List.map_map]
  exact and_iff_right rfl

theorem Fits.length_eq (hfits : a.Fits args h) : args.length = a.parameters.length := by
  simpa using (congrArg List.length hfits).symm

theorem Fits.eq_of_mem_zip (hfits : a.Fits args h) {p : SimpleTerm} {t : Term}
    (hpair : (p, t) ∈ a.parameters.zip args) : p.toTerm.bind h = t.bind h := by
  have hpairs :
      List.Forall₂ Eq (a.parameters.map fun p => p.toTerm.bind h) (args.map (·.bind h)) := by
    rw [List.forall₂_eq_eq_eq]
    exact hfits
  rw [List.forall₂_map_left_iff, List.forall₂_map_right_iff] at hpairs
  exact (List.forall₂_iff_zip.mp hpairs).2 hpair

/-- **What a call does.**  It grounds the action under a substitution of which the solutions are the
assignments that fit, or there is none and the call is ill-formed. -/
theorem call_spec (ha : a.isProper) (hargs : ∀ t ∈ args, t.isProper) :
    (∃ σ : Substitution, σ.Loopfree ∧ σ.IsProper ∧ (∀ h, σ.SolvedBy h ↔ a.Fits args h) ∧
      a.call args = a.ground σ) ∨
    (∀ h, ¬a.Fits args h) ∧ ∃ fault, a.call args = .error (.schema fault) := by
  rw [call_eq ha hargs]
  by_cases hlength : args.length = a.parameters.length
  · rw [if_neg (not_not.mpr hlength)]
    cases hunify : (∅ : Substitution).unifyAtoms? a.signature ⟨a.name, args⟩ with
    | some σ =>
        have hσ := solution_of_unifyAtoms? ha hargs hunify
        refine Or.inl ⟨σ, hσ.loopfree, hσ.proper, fun h => ?_, rfl⟩
        rw [hσ.solvedBy, unifies_iff_fits]
        exact and_iff_right (Substitution.solvedBy_empty h)
    | none =>
        refine Or.inr ⟨fun h hfits => ?_, _, rfl⟩
        exact Substitution.not_unifies_of_unifyPairs? Substitution.triangular_empty nofun
          (Substitution.properPairs_atoms (isProper_signature ha) (isProper_of_args ha hargs))
          hunify
          (Substitution.solvedBy_empty h) (unifies_iff_fits.mpr hfits)
  · rw [if_pos hlength]
    exact Or.inr ⟨fun h hfits => hlength hfits.length_eq, _, rfl⟩

/-- **A call succeeds when the assignments that fit leave no choice but constants**, and then it
gives the instance under them. -/
theorem call_eq_ok_iff (ha : a.isProper) (hargs : ∀ t ∈ args, t.isProper) : a.call args = .ok g ↔
    g.isGround ∧ ∃ h, a.Fits args h ∧ a.IsInstance h g.toSchema ∧
      ∀ k, a.Fits args k → ∀ x ∈ a.vars, k x = h x := by
  rcases call_spec ha hargs with ⟨σ, hσ, hproper, hsolved, hcall⟩ | ⟨hnone, fault, hcall⟩
  · have hvalues : ∀ x, (σ.apply (.var x)).isProper :=
      fun x => Substitution.isProper_apply hproper rfl
    have hfits : a.Fits args fun x => σ.apply (.var x) :=
      (hsolved _).mp hσ.triangular.solvedBy_apply
    rw [hcall, ground_eq_ok_of_triangular hσ.triangular hproper ha]
    constructor
    · -- the substitution leaves no variable open, so every assignment that fits has its values
      rintro ⟨hinstantiated, hground⟩
      have hinstance := isInstance_of_instantiated? hinstantiated
      refine ⟨hground, _, hfits, hinstance, fun k hk x hx => ?_⟩
      obtain ⟨c, hc⟩ := exists_const_of_mem_vars (fun p hp =>
        exists_const_of_isInstance ha hvalues hinstance hground hp) hx
      calc k x = (σ.apply (.var x)).bind k :=
            (Substitution.bind_apply ((hsolved k).mpr hk) (.var x)).symm
        _ = σ.apply (.var x) := by rw [hc, Term.bind_const]
    · rintro ⟨hground, h, -, hinstance, hunique⟩
      have hinstance' := hinstance.congr fun x hx => (hunique _ hfits x hx).symm
      obtain ⟨cs, hcs⟩ := exists_map_const (List.forall_mem_map.mpr fun p hp =>
        exists_const_of_isInstance ha hvalues hinstance' hground hp)
      obtain ⟨g', hg', -⟩ := exists_instantiated? ha hcs
      obtain rfl := (isInstance_of_instantiated? hg').eq hinstance'
      exact ⟨hg', hground⟩
  · rw [hcall]
    refine iff_of_false nofun ?_
    rintro ⟨-, h, hfits, -⟩
    exact hnone h hfits

/-! ## Position by position -/

theorem beq_var_iff {x : Variable} {p : SimpleTerm} : SimpleTerm.var x == p ↔ p = .var x := by
  have hterm : SimpleTerm.var x == p ↔ Term.var x = p.toTerm := Term.beq_iff_eq_of_isProper rfl
  rw [hterm, eq_comm]
  exact SimpleTerm.toTerm_injective.eq_iff (b := .var x)

/-- A variable stands for the argument opposite to it, and for itself if it is no parameter. -/
def positional (ps : List SimpleTerm) (ts : List Term) (x : Variable) : Term :=
  ((ps.zip ts).lookup (.var x)).getD (.var x)

section Positional

variable {p : SimpleTerm} {t : Term} {ps : List SimpleTerm} {ts : List Term} {x : Variable}

theorem positional_cons_self : positional (.var x :: ps) (t :: ts) x = t := by
  rw [positional, List.zip_cons_cons, List.lookup_cons, beq_var_iff.mpr rfl]
  rfl

theorem positional_cons_of_ne (hne : p ≠ .var x) :
    positional (p :: ps) (t :: ts) x = positional ps ts x := by
  have hbeq : (SimpleTerm.var x == p) = false :=
    Bool.eq_false_iff.mpr fun h => hne (beq_var_iff.mp h)
  rw [positional, List.zip_cons_cons, List.lookup_cons, hbeq]
  rfl

theorem positional_of_not_mem (hx : .var x ∉ ps) : positional ps ts x = .var x := by
  have hnone : (ps.zip ts).lookup (.var x) = none := by
    refine List.lookup_eq_none_iff.mpr fun pair hpair => ?_
    rw [bne, Bool.not_eq_true', Bool.eq_false_iff]
    intro h
    exact hx (beq_var_iff.mp h ▸ (List.of_mem_zip hpair).1)
  rw [positional, hnone]
  rfl

/-- **Distinct parameters become the arguments opposite to them**, where constants stand opposite to
themselves. -/
theorem map_positional (hnodup : (ps.flatMap fun p => p.toTerm.vars).Nodup)
    (hopposite : List.Forall₂ (fun p t => (∃ x, p = .var x) ∨ ∃ c, p = .const c ∧
      t = .const c) ps ts) :
    (ps.map fun p => p.toTerm.bind (positional ps ts)) = ts := by
  induction hopposite with
  | nil => rfl
  | @cons p t ps ts hpt _ ih =>
      obtain ⟨-, hrest, hdisjoint⟩ := List.nodup_append.mp (List.flatMap_cons ▸ hnodup)
      have htail : ∀ q ∈ ps,
          q.toTerm.bind (positional (p :: ps) (t :: ts)) = q.toTerm.bind (positional ps ts) := by
        intro q hq
        refine Term.bind_congr fun x hx => positional_cons_of_ne ?_
        rintro rfl
        exact hdisjoint x (List.mem_singleton_self x) x (List.mem_flatMap.mpr ⟨q, hq, hx⟩) rfl
      rw [List.map_cons, List.map_congr_left htail, ih hrest]
      rcases hpt with ⟨x, rfl⟩ | ⟨c, rfl, rfl⟩
      · exact congrArg (· :: ts) positional_cons_self
      · rfl

end Positional

/-- What a call is meant to return: all arguments are constants, they are the parameters, and they
stand in every field in the place of the parameters that they are given for. -/
structure Positional (a : Action) (args : List Term) (g : Action) : Prop where
  constants : ∀ t ∈ args, ∃ c, t = .const c
  parameters : g.parameters.map SimpleTerm.toTerm = args
  fields : a.IsInstance (positional a.parameters args) g.toSchema

/-- The arguments have no variable of the schema, and each of their variables stands opposite to
one. -/
structure Apart (a : Action) (args : List Term) : Prop where
  fresh : ∀ x, .var x ∈ args → x ∉ a.vars
  opposite : ∀ c t, (.const c, t) ∈ a.parameters.zip args → ∀ x, t ≠ .var x

theorem nodup_vars (a : Action) : a.vars.Nodup := by
  have hsound := a.sound
  unfold Schema.fault? at hsound
  split_ifs at hsound with hnodup
  exact hnodup

variable (hsimple : ∀ t ∈ args, (∃ x, t = .var x) ∨ ∃ c, t = .const c)

include hsimple in
theorem isProper_of_simple : ∀ t ∈ args, t.isProper := by
  intro t ht
  rcases hsimple t ht with ⟨x, rfl⟩ | ⟨c, rfl⟩
  · rfl
  · rfl

include hsimple in
theorem Apart.map_positional_eq (hapart : a.Apart args) (ha : a.isProper) (hfits : a.Fits args h) :
    (a.parameters.map fun p => p.toTerm.bind (positional a.parameters args)) = args := by
  have hlength : a.parameters.length = args.length := hfits.length_eq.symm
  refine map_positional a.nodup_vars (List.forall₂_iff_zip.mpr ⟨hlength, fun {p t} hpair => ?_⟩)
  obtain ⟨hp, ht⟩ := List.of_mem_zip hpair
  cases p with
  | var x => exact Or.inl ⟨x, rfl⟩
  | const c =>
      rcases hsimple t ht with ⟨x, rfl⟩ | ⟨d, rfl⟩
      · exact absurd rfl (hapart.opposite c _ hpair x)
      · exact Or.inr ⟨c, rfl, (hfits.eq_of_mem_zip hpair).symm⟩
  | listed => cases (Schema.isProper_iff.mp ha).2.1 _ hp

include hsimple in
theorem Apart.fits_positional (hapart : a.Apart args) (ha : a.isProper) (hfits : a.Fits args h) :
    a.Fits args (positional a.parameters args) := by
  rw [Fits, hapart.map_positional_eq hsimple ha hfits]
  refine (List.map_id' args).symm.trans (List.map_congr_left fun t ht => ?_)
  rcases hsimple t ht with ⟨x, rfl⟩ | ⟨c, rfl⟩
  · have hx : .var x ∉ a.parameters := fun hmem =>
      hapart.fresh x ht (List.mem_flatMap.mpr ⟨_, hmem, List.mem_singleton_self x⟩)
    exact (positional_of_not_mem hx).symm
  · rfl

/-- What a call is meant to return is what it returns. -/
theorem Positional.call_eq (hg : a.Positional args g) (ha : a.isProper) : a.call args = .ok g := by
  have hproper : ∀ t ∈ args, t.isProper := isProper_of_simple fun t ht => Or.inr (hg.constants t ht)
  have hclosed : ∀ k : Variable → Term, args.map (·.bind k) = args := fun k =>
    (List.map_congr_left fun t ht => by
      obtain ⟨c, rfl⟩ := hg.constants t ht
      rfl).trans (List.map_id' args)
  have hparameters :
      (a.parameters.map fun p => p.toTerm.bind (positional a.parameters args)) = args :=
    hg.fields.parameters.symm.trans hg.parameters
  refine (call_eq_ok_iff ha hproper).mpr ⟨?_, _, ?_, hg.fields, fun k hk x hx => ?_⟩
  · refine List.all_eq_true.mpr fun p hp => ?_
    obtain ⟨c, hc⟩ := hg.constants p.toTerm (hg.parameters ▸ List.mem_map_of_mem hp)
    obtain rfl : p = .const c := SimpleTerm.toTerm_injective hc
    rfl
  · rw [Fits, hclosed, hparameters]
  · exact Schema.eq_of_parameters_eq (hk.trans ((hclosed k).trans hparameters.symm)) hx

include hsimple in
/-- **Where the arguments stand apart, a call returns what it is meant to and nothing else.** -/
theorem Apart.call_eq_ok_iff (hapart : a.Apart args) (ha : a.isProper) :
    a.call args = .ok g ↔ a.Positional args g := by
  refine ⟨fun hg => ?_, fun hg => hg.call_eq ha⟩
  obtain ⟨hground, h, hfits, hinstance, hunique⟩ :=
    (Action.call_eq_ok_iff ha (isProper_of_simple hsimple)).mp hg
  have hfields := hinstance.congr fun x hx =>
    (hunique _ (hapart.fits_positional hsimple ha hfits) x hx).symm
  have hparameters := hfields.parameters.trans (hapart.map_positional_eq hsimple ha hfits)
  refine ⟨fun t ht => (hsimple t ht).resolve_left ?_, hparameters, hfields⟩
  -- a variable would be a parameter of what is ground
  rintro ⟨x, rfl⟩
  rw [← hparameters] at ht
  obtain ⟨q, hq, hqx⟩ := List.mem_map.mp ht
  obtain rfl : q = .var x := SimpleTerm.toTerm_injective hqx
  cases List.all_eq_true.mp hground _ hq

theorem apart_of_constants (hconstants : ∀ t ∈ args, ∃ c, t = .const c) : a.Apart args where
  fresh x hx := by
    obtain ⟨c, hc⟩ := hconstants _ hx
    cases hc
  opposite c t hpair x := by
    obtain ⟨d, rfl⟩ := hconstants t (List.of_mem_zip hpair).2
    exact nofun

theorem not_fits_of_conflict {c d : Constant} (hpair : (.const c, .const d) ∈ a.parameters.zip args)
    (hne : c ≠ d) (h : Variable → Term) : ¬a.Fits args h :=
  fun hfits => hne (Term.const.inj (hfits.eq_of_mem_zip hpair))

/-- **Calling an action with variables and constants.**  It succeeds exactly when the assignments
that make each parameter equal to the argument opposite to it leave no choice but constants; it
fails with a refusal, and the arguments do not fit if there are too few or too many of them, or a
constant is given for another one.  Constants are put in the place of the parameters.  So are
arguments that stand apart from the schema, and then any variable among them is refused. -/
theorem call_exact (ha : a.isProper) (hsimple : ∀ t ∈ args, (∃ x, t = .var x) ∨ ∃ c, t = .const c) :
    (∀ g, a.call args = .ok g ↔ g.isGround ∧ ∃ h, a.Fits args h ∧ a.IsInstance h g.toSchema ∧
      ∀ k, a.Fits args k → ∀ x ∈ a.vars, k x = h x) ∧
    (∀ e, a.call args = .error e → e.Refuses) ∧
    (args.length ≠ a.parameters.length ∨
        (∃ c d, (.const c, .const d) ∈ a.parameters.zip args ∧ c ≠ d) →
      ∃ fault, a.call args = .error (.schema fault)) ∧
    ((∀ t ∈ args, ∃ c, t = .const c) → a.Apart args) ∧
    (a.Apart args → (∀ g, a.call args = .ok g ↔ a.Positional args g) ∧
      ∀ x, .var x ∈ args → ∃ e, a.call args = .error e ∧ e.Refuses) := by
  have hproper := isProper_of_simple hsimple
  refine ⟨fun g => call_eq_ok_iff ha hproper, fun e he => refuses_of_call ha hproper he, ?_,
    apart_of_constants, fun hapart => ⟨fun g => hapart.call_eq_ok_iff hsimple ha, ?_⟩⟩
  · intro hbad
    -- unification is most general, so that it fails where no assignment fits
    have hnone : ∀ h, ¬a.Fits args h := by
      rcases hbad with hlength | ⟨c, d, hpair, hne⟩
      · exact fun h hfits => hlength hfits.length_eq
      · exact not_fits_of_conflict hpair hne
    rcases call_spec ha hproper with ⟨σ, hσ, -, hsolved, -⟩ | ⟨-, hfault⟩
    · exact absurd ((hsolved _).mp hσ.triangular.solvedBy_apply) (hnone _)
    · exact hfault
  · intro x hx
    cases hcall : a.call args with
    | error e => exact ⟨e, rfl, refuses_of_call ha hproper hcall⟩
    | ok g =>
        obtain ⟨c, hc⟩ := ((hapart.call_eq_ok_iff hsimple ha).mp hcall).constants _ hx
        cases hc

/-- Nobody can drive from Sibiu to an unknown place. -/
theorem call_exact_drive : ∃ a args, Worlds.drive = .ok a ∧ a.isProper ∧
    args = [.const ⟨"Sibiu", by decide, by decide⟩, .var ⟨"z", by decide⟩] ∧
    (∀ t ∈ args, (∃ x, t = .var x) ∨ ∃ c, t = .const c) ∧ a.Apart args ∧
    ∃ e, a.call args = .error e ∧ e.Refuses := by
  obtain ⟨a, hdrive, ha, hparameters⟩ := exists_drive
  let args : List Term := [.const ⟨"Sibiu", by decide, by decide⟩, .var ⟨"z", by decide⟩]
  have hsimple : ∀ t ∈ args, (∃ x, t = .var x) ∨ ∃ c, t = .const c := by simp [args]
  have hapart : a.Apart args := by
    constructor
    · simp [args, Schema.vars, hparameters, SimpleTerm.toTerm]
    · simp [args, hparameters]
  obtain ⟨-, -, -, -, hexact⟩ := call_exact ha hsimple
  exact ⟨a, args, hdrive, ha, rfl, hsimple, hapart,
    (hexact hapart).2 ⟨"z", by decide⟩ (by simp [args])⟩

/-- A variable given for a parameter may have the name of another parameter, and then it is bound
with it: driving from `y` to a city is driving from there to there. -/
theorem not_forall_positional : ¬∀ (a : Action) (args : List Term), a.isProper →
    (∀ t ∈ args, (∃ x, t = .var x) ∨ ∃ c, t = .const c) →
      ∀ g, a.call args = .ok g → a.Positional args g := by
  intro hall
  obtain ⟨a, -, ha, hparameters⟩ := exists_drive
  let city : Constant := ⟨"A", by decide, by decide⟩
  let args : List Term := [.var ⟨"y", by decide⟩, .const city]
  have hsimple : ∀ t ∈ args, (∃ x, t = .var x) ∨ ∃ c, t = .const c := by simp [args]
  have hcity :
      (a.parameters.map fun p => p.toTerm.bind fun _ => .const city) = [city, city].map .const := by
    rw [hparameters]
    rfl
  obtain ⟨g, hg, hground⟩ := exists_instantiated? ha hcity
  have hcall : a.call args = .ok g := by
    refine (call_eq_ok_iff ha (isProper_of_simple hsimple)).mpr
      ⟨hground, _, ?_, isInstance_of_instantiated? hg, fun k hk x hx => ?_⟩
    · rw [Fits, hparameters]
      rfl
    · -- the name `y` stands on both sides, so both parameters must be the city
      rw [Fits, hparameters] at hk
      obtain ⟨hfirst, hsecond⟩ :
          k ⟨"x", by decide⟩ = k ⟨"y", by decide⟩ ∧ k ⟨"y", by decide⟩ = .const city := by
        simpa [args, SimpleTerm.toTerm] using hk
      have hsame : (a.parameters.map fun p => p.toTerm.bind k) =
          a.parameters.map fun p => p.toTerm.bind fun _ => .const city := by
        simp [hparameters, SimpleTerm.toTerm, hfirst, hsecond]
      exact Schema.eq_of_parameters_eq hsame hx
  obtain ⟨c, hc⟩ := (hall a args ha hsimple g hcall).constants _ List.mem_cons_self
  cases hc

end HornPlan.Action
