import HornPlan.Action
import HornPlan.Proofs.Cycles
import HornPlan.Proofs.Matching

/-!
# Instances of actions

An action is instantiated by a substitution whose terms are closed.  For such a substitution the
checked application is plain replacement, there is no cycle to be found, and two of them compose to
one that binds what either of them binds (`Substitution.Closed.compose_spec`).

A ground action is an *instance* of a schema under an assignment when its parameters and its lists
of atoms are those of the schema with the variables replaced.  Grounding yields instances
(`isInstance_of_ground`), and two instances with the same parameters are alike, since every variable
of a schema is a parameter (`IsInstance.congr`).
-/

namespace HornPlan

/-! ## Checked application -/

namespace Substitution

variable {σ : Substitution}

theorem Closed.isProper_value (hσ : σ.Closed) (x : Variable) : (σ.value x).isProper := by
  unfold value
  cases hlookup : σ.lookup x.name with
  | none => rfl
  | some t => exact (hσ.of_lookup hlookup).1

theorem Closed.tryApply_eq (hσ : σ.Closed) {t : Term} (ht : t.isProper) :
    σ.tryApply t = .ok (t.bind σ.value) := by
  rw [hσ.triangular.tryApply_eq hσ.isProper ht, hσ.apply_eq]

theorem apply_eq_bind (σ : Substitution) (t : Term) :
    σ.apply t = t.bind fun x => σ.apply (.var x) :=
  resolve_eq_bind σ _ t

theorem Closed.apply_var_eq (hσ : σ.Closed) : (fun x => σ.apply (.var x)) = σ.value :=
  funext fun x => hσ.apply_eq (.var x)

theorem Triangular.tryApplyAtom_eq (hσ : σ.Triangular) (hproper : σ.IsProper) {a : Atom}
    (ha : a.isProper) : σ.tryApplyAtom a = .ok (a.bind fun x => σ.apply (.var x)) := by
  have hargs := (Atom.isProper_iff.mp ha).2
  have hmap : a.args.mapM σ.tryApply = .ok (a.args.map (·.bind fun x => σ.apply (.var x))) :=
    mapM_eq_ok_map fun t ht => by rw [hσ.tryApply_eq hproper (hargs t ht), ← apply_eq_bind]
  rw [tryApplyAtom, hmap, ok_bind]
  refine build?_eq_ok (List.forall_mem_map.mpr fun t ht => ?_) a.predicate
  exact Term.isProper_bind.mpr ⟨hargs t ht, fun x _ => isProper_apply hproper rfl⟩

theorem Closed.checkAcyclic_eq (hσ : σ.Closed) : σ.checkAcyclic = .ok σ :=
  hσ.triangular.loopfree.checkAcyclic_eq hσ.isProper

/-! ## Composition -/

theorem lookup_insertNew (σ : Substitution) (name : String) (t : Term) (other : String) :
    (σ.insertNew name t).lookup other =
      (σ.lookup other).or (if other = name then some t else none) := by
  unfold insertNew
  split
  · rename_i hmem
    split
    · rename_i heq
      obtain ⟨u, hu⟩ := mem_names.mp hmem
      rw [heq, lookup_eq_some_iff.mpr hu]
      rfl
    · exact (Option.or_none ..).symm
  · rename_i hnone
    rw [lookup_insert hnone]
    split
    · rename_i heq
      rw [heq, lookup_eq_none_iff.mpr hnone]
      rfl
    · exact (Option.or_none ..).symm

theorem lookup_foldl_insertNew (bindings : List (String × Term)) (σ : Substitution)
    (name : String) :
    (bindings.foldl (fun σ binding => σ.insertNew binding.1 binding.2) σ).lookup name
      = (σ.lookup name).or (List.lookup name bindings) := by
  induction bindings generalizing σ with
  | nil => exact (Option.or_none ..).symm
  | cons binding rest ih =>
      rw [List.foldl_cons, ih, lookup_insertNew, Option.or_assoc, List.lookup_cons]
      by_cases heq : name = binding.1
      · simp [heq]
      · simp [heq, beq_eq_false_iff_ne.mpr heq]

theorem Closed.foldl_insertNew (hσ : σ.Closed) {bindings : List (String × Term)}
    (hbindings : ∀ binding ∈ bindings, binding.2.Closed) :
    (bindings.foldl (fun σ binding => σ.insertNew binding.1 binding.2) σ).Closed := by
  induction bindings generalizing σ with
  | nil => exact hσ
  | cons binding rest ih =>
      obtain ⟨hfirst, hrest⟩ := List.forall_mem_cons.mp hbindings
      refine ih ?_ hrest
      show (σ.insertNew binding.1 binding.2).Closed
      unfold insertNew
      split
      · exact hσ
      · rename_i hnone
        exact hσ.insert hnone hfirst

theorem Closed.mapTerms_apply {outer inner : Substitution} (houter : outer.Closed)
    (hinner : inner.Closed) : inner.mapTerms outer.apply = inner := by
  refine eq_of_bindings_eq ((List.map_congr_left ?_).trans (List.map_id _))
  intro binding hbinding
  rw [houter.apply_eq, Term.Closed.bind_eq (hinner binding hbinding)]
  rfl

theorem Closed.filter_isIdentity (hσ : σ.Closed) :
    (σ.filter fun name t => !isIdentity name t) = σ := by
  refine eq_of_bindings_eq (List.filter_eq_self.mpr ?_)
  intro binding hbinding
  have hclosed := hσ binding hbinding
  cases hterm : binding.2 with
  | var x =>
      rw [hterm] at hclosed
      cases hclosed.2
  | _ => simp [isIdentity]

/-- **Composing two substitutions by closed terms joins them**; where both bind a name, the inner
one counts. -/
theorem Closed.compose_spec {outer inner : Substitution} (houter : outer.Closed)
    (hinner : inner.Closed) :
    ∃ σ, outer.compose inner = .ok σ ∧ σ.Closed ∧
      ∀ name, σ.lookup name = (inner.lookup name).or (outer.lookup name) := by
  have hchecked :
      inner.bindings.forM (fun binding => do discard (outer.tryApply binding.2)) = .ok () :=
    forM_eq_ok fun binding hbinding => by
      rw [houter.tryApply_eq (hinner binding hbinding).1]
      rfl
  have hjoined := hinner.foldl_insertNew houter
  refine ⟨_, ?_, hjoined, lookup_foldl_insertNew outer.bindings inner⟩
  rw [compose, houter.checkAcyclic_eq, ok_bind, hinner.checkAcyclic_eq, ok_bind, hchecked, ok_bind,
    houter.mapTerms_apply hinner]
  simp only [hjoined.filter_isIdentity]
  exact hjoined.checkAcyclic_eq

end Substitution

/-! ## Proper schemas and their instances -/

namespace Schema

/-- The name is a text, and all parameters and atoms are proper. -/
def isProper (s : Schema) : Bool :=
  s.name.isText && s.parameters.all (fun p => p.toTerm.isProper) && s.atoms.all Atom.isProper

theorem isProper_iff {s : Schema} : s.isProper ↔ s.name.isText ∧
    (∀ p ∈ s.parameters, p.toTerm.isProper) ∧ ∀ a ∈ s.atoms, a.isProper := by
  simp [isProper, and_assoc]

/-- A schema whose parts are those of another one under an assignment. -/
structure IsInstance (s : Schema) (h : Variable → Term) (g : Schema) : Prop where
  name : g.name = s.name
  parameters : g.parameters.map SimpleTerm.toTerm = s.parameters.map fun p => p.toTerm.bind h
  requires : g.requires = (s.requires.map (·.bind h)).eraseDups
  forbids : g.forbids = (s.forbids.map (·.bind h)).eraseDups
  adds : g.adds = (s.adds.map (·.bind h)).eraseDups
  deletes : g.deletes = (s.deletes.map (·.bind h)).eraseDups
  static : g.static = (s.static.map (·.bind h)).eraseDups

theorem ofTerm?_eq_some {t : Term} {p : SimpleTerm} (h : SimpleTerm.ofTerm? t = some p) :
    p.toTerm = t := by
  unfold SimpleTerm.ofTerm? at h
  split at h
  · cases h
    rfl
  · cases h
    rfl
  · split at h
    · cases h
      rfl
    · cases h
  · cases h
  · cases h

theorem toTerm_of_parameters? {f : Symbol} {terms : List Term} {ps : List SimpleTerm}
    (h : parameters? f terms = .ok ps) : ps.map SimpleTerm.toTerm = terms := by
  unfold parameters? at h
  split at h
  · cases h
  · refine map_eq_of_mapM_eq_ok ?_ h
    intro t p hp
    split at hp
    · cases hp
      exact ofTerm?_eq_some ‹_›
    · cases hp

theorem toSchema_of_toAction? {s : Schema} {g : Action} (h : s.toAction? = .ok g) :
    g.toSchema = s.distinct := by
  unfold toAction? at h
  split at h
  · cases h
    rfl
  · cases h

/-- Two assignments that give the parameters the same values agree on the variables among them. -/
theorem eq_of_parameters_eq {s : Schema} {h k : Variable → Term}
    (heq : (s.parameters.map fun p => p.toTerm.bind h) = s.parameters.map fun p => p.toTerm.bind k)
    {x : Variable} (hx : x ∈ s.vars) : h x = k x := by
  obtain ⟨p, hp, hxp⟩ := List.mem_flatMap.mp hx
  exact Term.eq_of_bind_eq (List.map_inj_left.mp heq p hp) x hxp

theorem mem_of_atomFault?_eq_none {f : Symbol} {parameters : List Variable}
    {seen : List (Symbol × Nat)} {as : List Atom} (h : atomFault? f parameters seen as = none)
    {b : Atom} (hb : b ∈ as) {x : Variable} (hx : x ∈ b.vars) : x ∈ parameters := by
  induction as generalizing seen with
  | nil => exact absurd hb List.not_mem_nil
  | cons a as ih =>
      rw [atomFault?] at h
      split_ifs at h with hclash hstray
      rcases List.mem_cons.mp hb with rfl | hb
      · have hall : ∀ y ∈ b.vars, y ∈ parameters := by simpa using hstray
        exact hall x hx
      · exact ih h hb

end Schema

theorem Action.mem_vars (a : Action) {b : Atom} (hb : b ∈ a.atoms) {x : Variable}
    (hx : x ∈ b.vars) :
    x ∈ a.vars := by
  have hsound := a.sound
  unfold Schema.fault? at hsound
  split_ifs at hsound
  exact Schema.mem_of_atomFault?_eq_none hsound hb hx

section

variable {a : Action} {h k : Variable → Term}

theorem Action.map_bind_congr (heq : ∀ x ∈ a.vars, h x = k x) {as : List Atom}
    (has : ∀ b ∈ as, b ∈ a.atoms) : as.map (·.bind h) = as.map (·.bind k) :=
  List.map_congr_left fun b hb => Atom.bind_congr fun x hx => heq x (a.mem_vars (has b hb) hx)

theorem Action.map_parameters_congr (heq : ∀ x ∈ a.vars, h x = k x) :
    (a.parameters.map fun p => p.toTerm.bind h) = a.parameters.map fun p => p.toTerm.bind k :=
  List.map_congr_left fun p hp => Term.bind_congr fun x hx =>
    heq x (List.mem_flatMap.mpr ⟨p, hp, hx⟩)

/-- An assignment matters only for the variables among the parameters. -/
theorem Schema.IsInstance.congr {g : Schema} (hg : a.IsInstance h g)
    (heq : ∀ x ∈ a.vars, h x = k x) :
    a.IsInstance k g := by
  refine ⟨hg.name, ?_, ?_, ?_, ?_, ?_, ?_⟩
  · rw [hg.parameters, Action.map_parameters_congr heq]
  · rw [hg.requires, Action.map_bind_congr heq (by simp +contextual [Schema.atoms])]
  · rw [hg.forbids, Action.map_bind_congr heq (by simp +contextual [Schema.atoms])]
  · rw [hg.adds, Action.map_bind_congr heq (by simp +contextual [Schema.atoms])]
  · rw [hg.deletes, Action.map_bind_congr heq (by simp +contextual [Schema.atoms])]
  · rw [hg.static, Action.map_bind_congr heq (by simp +contextual [Schema.atoms])]

end

theorem SimpleTerm.toTerm_injective : Function.Injective SimpleTerm.toTerm := by
  intro p q h
  cases p <;> cases q <;> cases h <;> rfl

/-- Proper terms make proper instances. -/
theorem Schema.IsInstance.isProper {s g : Schema} {h : Variable → Term} (hg : s.IsInstance h g)
    (hs : s.isProper) (hvalues : ∀ x, (h x).isProper) : g.isProper := by
  obtain ⟨hname, hparameters, hatoms⟩ := isProper_iff.mp hs
  have hlist : ∀ as : List Atom, (∀ b ∈ as, b ∈ s.atoms) →
      ∀ c ∈ (as.map (·.bind h)).eraseDups, c.isProper := by
    intro as hsub c hc
    obtain ⟨b, hb, rfl⟩ := List.mem_map.mp (mem_of_mem_eraseDups hc)
    exact Atom.isProper_bind.mpr ⟨hatoms b (hsub b hb), fun x _ => hvalues x⟩
  refine isProper_iff.mpr ⟨hg.name ▸ hname, ?_, ?_⟩
  · intro q hq
    have hmem : q.toTerm ∈ g.parameters.map SimpleTerm.toTerm := List.mem_map_of_mem hq
    rw [hg.parameters] at hmem
    obtain ⟨p, hp, heq⟩ := List.mem_map.mp hmem
    rw [← heq]
    exact Term.isProper_bind.mpr ⟨hparameters p hp, fun x _ => hvalues x⟩
  · rw [Schema.atoms, hg.requires, hg.forbids, hg.adds, hg.deletes, hg.static]
    simp only [List.forall_mem_append]
    exact ⟨⟨⟨⟨hlist _ (by simp +contextual [Schema.atoms]),
      hlist _ (by simp +contextual [Schema.atoms])⟩, hlist _ (by simp +contextual [Schema.atoms])⟩,
        hlist _ (by simp +contextual [Schema.atoms])⟩,
      hlist _ (by simp +contextual [Schema.atoms])⟩

/-- A schema has one instance under an assignment. -/
theorem Schema.IsInstance.eq {s : Schema} {h : Variable → Term} {g g' : Action}
    (hg : s.IsInstance h g.toSchema) (hg' : s.IsInstance h g'.toSchema) : g = g' := by
  have hparameters : g.parameters = g'.parameters :=
    List.map_injective_iff.mpr SimpleTerm.toTerm_injective (hg.parameters.trans hg'.parameters.symm)
  obtain ⟨⟨name, parameters, requires, forbids, adds, deletes, static⟩, _, _⟩ := g
  obtain ⟨⟨name', parameters', requires', forbids', adds', deletes', static'⟩, _, _⟩ := g'
  obtain rfl : name = name' := hg.name.trans hg'.name.symm
  obtain rfl : parameters = parameters' := hparameters
  obtain rfl : requires = requires' := hg.requires.trans hg'.requires.symm
  obtain rfl : forbids = forbids' := hg.forbids.trans hg'.forbids.symm
  obtain rfl : adds = adds' := hg.adds.trans hg'.adds.symm
  obtain rfl : deletes = deletes' := hg.deletes.trans hg'.deletes.symm
  obtain rfl : static = static' := hg.static.trans hg'.static.symm
  rfl

namespace Action

variable {a g : Action} {σ : Substitution} {h k : Variable → Term}

theorem isProper_signature (ha : a.isProper) : a.signature.isProper := by
  obtain ⟨hname, hparameters, -⟩ := Schema.isProper_iff.mp ha
  exact Atom.isProper_iff.mpr ⟨hname, List.forall_mem_map.mpr hparameters⟩

theorem isPrintable_of_isProper (ha : a.isProper) : a.isPrintable :=
  Term.isPrintable_of_isProper (isProper_signature ha)

/-- The action of a schema with its variables replaced, before anything is said of constants. -/
def instantiated? (a : Action) (h : Variable → Term) : Except Error Action := do
  Schema.toAction? ⟨a.name, ← parameters? a.name (a.parameters.map fun p => p.toTerm.bind h),
    a.requires.map (·.bind h), a.forbids.map (·.bind h), a.adds.map (·.bind h),
    a.deletes.map (·.bind h), a.static.map (·.bind h)⟩

theorem isInstance_of_instantiated? (hg : a.instantiated? h = .ok g) :
    a.IsInstance h g.toSchema := by
  obtain ⟨ps, hps, hg⟩ := bind_eq_ok.mp hg
  rw [Schema.toSchema_of_toAction? hg]
  exact ⟨rfl, Schema.toTerm_of_parameters? hps, rfl, rfl, rfl, rfl, rfl⟩

theorem instantiated?_congr (heq : ∀ x ∈ a.vars, h x = k x) :
    a.instantiated? h = a.instantiated? k := by
  unfold instantiated?
  rw [map_parameters_congr heq, map_bind_congr heq (by simp +contextual [Schema.atoms]),
    map_bind_congr heq (by simp +contextual [Schema.atoms]),
    map_bind_congr heq (by simp +contextual [Schema.atoms]),
    map_bind_congr heq (by simp +contextual [Schema.atoms]),
    map_bind_congr heq (by simp +contextual [Schema.atoms])]

/-- Substitution replaces the variables by what becomes of them. -/
theorem substitute_eq_of_triangular (hσ : σ.Triangular) (hproper : σ.IsProper) (ha : a.isProper) :
    a.substitute σ = a.instantiated? fun x => σ.apply (.var x) := by
  obtain ⟨-, hparameters, hatoms⟩ := Schema.isProper_iff.mp ha
  have hterms : a.parameters.mapM (fun p => σ.tryApply p.toTerm)
      = .ok (a.parameters.map fun p => p.toTerm.bind fun x => σ.apply (.var x)) :=
    mapM_eq_ok_map fun p hp => by
      rw [hσ.tryApply_eq hproper (hparameters p hp), ← Substitution.apply_eq_bind]
  have hlist : ∀ as : List Atom, (∀ b ∈ as, b ∈ a.atoms) →
      as.mapM σ.tryApplyAtom = .ok (as.map (·.bind fun x => σ.apply (.var x))) := fun as hsub =>
    mapM_eq_ok_map fun b hb => hσ.tryApplyAtom_eq hproper (hatoms b (hsub b hb))
  have hindexable : ((a.requires ++ a.forbids ++ a.adds ++ a.deletes ++ a.static).map
      (·.bind fun x => σ.apply (.var x))).all Atom.isIndexable = true := by
    refine List.all_eq_true.mpr (List.forall_mem_map.mpr fun b hb => ?_)
    exact Term.isIndexable_of_isProper (Atom.isProper_bind.mpr
      ⟨hatoms b hb, fun x _ => Substitution.isProper_apply hproper rfl⟩)
  simp only [List.map_append] at hindexable
  rw [substitute, hterms, ok_bind, hlist a.requires (by simp +contextual [Schema.atoms]), ok_bind,
    hlist a.forbids (by simp +contextual [Schema.atoms]), ok_bind,
    hlist a.adds (by simp +contextual [Schema.atoms]), ok_bind,
    hlist a.deletes (by simp +contextual [Schema.atoms]), ok_bind,
    hlist a.static (by simp +contextual [Schema.atoms]), ok_bind, hindexable]
  rfl

theorem ground_eq (hσ : σ.Triangular) (hproper : σ.IsProper) (ha : a.isProper) :
    a.ground σ = a.instantiated? (fun x => σ.apply (.var x)) >>= fun g =>
      if g.isGround then .ok g
      else .error (.printing σ.isPrintable (.openAction
        (.unboundParameters a.name (variableNames g.vars) σ.text))) := by
  rw [ground, hσ.loopfree.checkAcyclic_eq hproper, ok_bind,
    substitute_eq_of_triangular hσ hproper ha]
  rfl

theorem ground_eq_ok_of_triangular (hσ : σ.Triangular) (hproper : σ.IsProper) (ha : a.isProper) :
    a.ground σ = .ok g ↔ a.instantiated? (fun x => σ.apply (.var x)) = .ok g ∧ g.isGround := by
  rw [ground_eq hσ hproper ha, bind_eq_ok]
  constructor
  · rintro ⟨instantiated, hinstantiated, hg⟩
    split at hg
    · obtain rfl := Except.ok.inj hg
      exact ⟨hinstantiated, ‹_›⟩
    · cases hg
  · rintro ⟨hinstantiated, hground⟩
    exact ⟨g, hinstantiated, if_pos hground⟩

theorem ground_eq_ok (hσ : σ.Closed) (ha : a.isProper) :
    a.ground σ = .ok g ↔ a.instantiated? σ.value = .ok g ∧ g.isGround := by
  rw [ground_eq_ok_of_triangular hσ.triangular hσ.isProper ha, hσ.apply_var_eq]

theorem closed_of_isGround (ha : a.isProper) (hground : a.isGround) {b : Atom} (hb : b ∈ a.atoms) :
    b.Closed := by
  have hvars : a.vars = [] := by
    refine List.flatMap_eq_nil_iff.mpr fun q hq => ?_
    have hconstant := List.all_eq_true.mp hground q hq
    cases q with
    | var x => cases hconstant
    | const c => rfl
    | listed => rfl
  refine ⟨(Schema.isProper_iff.mp ha).2.2 b hb, List.eq_nil_iff_forall_not_mem.mpr fun x hx => ?_⟩
  have hmem := a.mem_vars hb hx
  rw [hvars] at hmem
  exact absurd hmem List.not_mem_nil

/-- **Grounding yields an instance.** -/
theorem isInstance_of_ground (hσ : σ.Closed) (ha : a.isProper) (h : a.ground σ = .ok g) :
    a.IsInstance σ.value g.toSchema ∧ g.isGround := by
  obtain ⟨hinstantiated, hground⟩ := (ground_eq_ok hσ ha).mp h
  exact ⟨isInstance_of_instantiated? hinstantiated, hground⟩

end Action

end HornPlan
