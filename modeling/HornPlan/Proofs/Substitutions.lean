import HornPlan.Proofs.Terms
import HornPlan.Substitution

/-!
# The meaning of a substitution

A substitution stands for the equations between its names and its terms.  An assignment of terms to
all variables *solves* it when it makes these equations true.  Applying a substitution changes a
term, but no solution can tell the outcome from the term.

Chains of bindings end when the bound names can be ranked so that every binding leads to names of
lower rank: the substitution is then *triangular*.  Following chains no longer than the number of
bindings reaches their end, so that what `apply` returns mentions no bound name.
-/

namespace HornPlan

namespace Substitution

/-! ## Looking up -/

theorem eq_of_bindings_eq {σ τ : Substitution} (h : σ.bindings = τ.bindings) : σ = τ := by
  cases σ
  cases τ
  cases h
  rfl

theorem mem_names {σ : Substitution} {name : String} :
    name ∈ σ.names ↔ ∃ t, (name, t) ∈ σ.bindings := by
  simp [names]

theorem lookup_eq_some_iff {σ : Substitution} {name : String} {t : Term} :
    σ.lookup name = some t ↔ (name, t) ∈ σ.bindings := by
  obtain ⟨bindings, hnodup⟩ := σ
  unfold lookup
  simp only
  induction bindings with
  | nil => simp
  | cons binding rest ih =>
      obtain ⟨other, u⟩ := binding
      rw [List.map_cons, List.nodup_cons] at hnodup
      rw [List.lookup_cons, List.mem_cons]
      by_cases hname : name = other
      · subst hname
        have hrest : (name, t) ∉ rest := fun h =>
          hnodup.1 (List.mem_map.mpr ⟨(name, t), h, rfl⟩)
        simp [hrest, eq_comm]
      · simp [beq_false_of_ne hname, hname, ih hnodup.2]

theorem lookup_eq_none_iff {σ : Substitution} {name : String} :
    σ.lookup name = none ↔ name ∉ σ.names := by
  rw [Option.eq_none_iff_forall_ne_some, mem_names]
  simp only [ne_eq, lookup_eq_some_iff, not_exists]

theorem bindings_insert {σ : Substitution} {name : String} (h : name ∉ σ.names) (t : Term) :
    (σ.insert name t).bindings = σ.bindings ++ [(name, t)] := by
  rw [insert, dif_neg h]

theorem names_insert {σ : Substitution} {name : String} (h : name ∉ σ.names) (t : Term) :
    (σ.insert name t).names = σ.names ++ [name] := by
  simp [names, bindings_insert h]

theorem lookup_insert {σ : Substitution} {name : String} (h : name ∉ σ.names) (t : Term)
    (other : String) :
    (σ.insert name t).lookup other = if other = name then some t else σ.lookup other := by
  ext u
  rw [lookup_eq_some_iff, bindings_insert h, List.mem_append, List.mem_singleton, Prod.mk.injEq]
  split
  · rename_i heq
    subst heq
    have hno : (other, u) ∉ σ.bindings := fun hu => h (mem_names.mpr ⟨u, hu⟩)
    simp [hno, eq_comm]
  · rename_i hne
    simp [hne, lookup_eq_some_iff]

/-! ## Solutions -/

/-- An assignment makes the equations of a substitution true. -/
def SolvedBy (σ : Substitution) (h : Variable → Term) : Prop :=
  ∀ x t, σ.lookup x.name = some t → h x = t.bind h

theorem solvedBy_empty (h : Variable → Term) : (∅ : Substitution).SolvedBy h :=
  fun _ _ ht => nomatch ht

theorem solvedBy_insert {σ : Substitution} {x : Variable} (hx : x.name ∉ σ.names) {t : Term}
    {h : Variable → Term} : (σ.insert x.name t).SolvedBy h ↔ σ.SolvedBy h ∧ h x = t.bind h := by
  constructor
  · intro hsolved
    refine ⟨fun y u hu => hsolved y u ?_, hsolved x t (by rw [lookup_insert hx, if_pos rfl])⟩
    rw [lookup_insert hx, if_neg, hu]
    intro heq
    exact hx (mem_names.mpr ⟨u, lookup_eq_some_iff.mp (heq ▸ hu)⟩)
  · rintro ⟨hsolved, hxt⟩ y u hu
    rw [lookup_insert hx] at hu
    split at hu
    · rename_i heq
      obtain rfl := Variable.eq_of_name_eq heq
      cases hu
      exact hxt
    · exact hsolved y u hu

theorem bind_resolve {σ : Substitution} {h : Variable → Term} (hsolved : σ.SolvedBy h)
    (depth : Nat) (t : Term) : (σ.resolve depth t).bind h = t.bind h := by
  induction depth generalizing t with
  | zero => rfl
  | succ depth ih =>
      rw [resolve, Term.bind_bind]
      refine Term.bind_congr ?_
      intro x _
      split
      · rename_i u hu
        rw [ih, hsolved x u hu]
      · rfl

theorem bind_apply {σ : Substitution} {h : Variable → Term} (hsolved : σ.SolvedBy h) (t : Term) :
    (σ.apply t).bind h = t.bind h :=
  bind_resolve hsolved _ t

theorem bind_applyAtom {σ : Substitution} {h : Variable → Term} (hsolved : σ.SolvedBy h)
    (a : Atom) :
    (σ.applyAtom a).bind h = a.bind h := by
  simp only [Atom.bind, applyAtom, List.map_map, Function.comp_def, bind_apply hsolved]

/-! ## Variables of the outcome -/

/-- All terms of a substitution are proper. -/
def IsProper (σ : Substitution) : Prop :=
  ∀ binding ∈ σ.bindings, binding.2.isProper

theorem IsProper.insert {σ : Substitution} (hσ : σ.IsProper) {name : String} (h : name ∉ σ.names)
    {t : Term} (ht : t.isProper) : (σ.insert name t).IsProper := by
  intro binding hbinding
  rw [bindings_insert h, List.mem_append, List.mem_singleton] at hbinding
  rcases hbinding with hbinding | rfl
  · exact hσ binding hbinding
  · exact ht

theorem isProper_resolve {σ : Substitution} (hσ : σ.IsProper) (depth : Nat) {t : Term}
    (ht : t.isProper) : (σ.resolve depth t).isProper := by
  induction depth generalizing t with
  | zero => exact ht
  | succ depth ih =>
      rw [resolve, Term.isProper_bind]
      refine ⟨ht, ?_⟩
      intro x _
      split
      · rename_i u hu
        exact ih (hσ _ (lookup_eq_some_iff.mp hu))
      · rfl

theorem isProper_apply {σ : Substitution} (hσ : σ.IsProper) {t : Term} (ht : t.isProper) :
    (σ.apply t).isProper :=
  isProper_resolve hσ _ ht

theorem mem_vars_resolve {σ : Substitution} {depth : Nat} {t : Term} {y : Variable}
    (hy : y ∈ (σ.resolve depth t).vars) :
    y ∈ t.vars ∨ ∃ binding ∈ σ.bindings, y ∈ binding.2.vars := by
  induction depth generalizing t with
  | zero => exact Or.inl hy
  | succ depth ih =>
      obtain ⟨x, hx, hyx⟩ := Term.mem_vars_bind.mp hy
      split at hyx
      · rename_i u hu
        rcases ih hyx with h | h
        · exact Or.inr ⟨_, lookup_eq_some_iff.mp hu, h⟩
        · exact Or.inr h
      · obtain rfl := List.mem_singleton.mp hyx
        exact Or.inl hx

theorem mem_vars_apply {σ : Substitution} {t : Term} {y : Variable} (hy : y ∈ (σ.apply t).vars) :
    y ∈ t.vars ∨ ∃ binding ∈ σ.bindings, y ∈ binding.2.vars :=
  mem_vars_resolve hy

/-! ## Triangular substitutions -/

/-- The bound names have ranks below their number, and every binding leads to names of lower
rank. -/
def Triangular (σ : Substitution) : Prop :=
  ∃ rank : String → Nat, ∀ name t, σ.lookup name = some t →
    rank name < σ.bindings.length ∧ ∀ y ∈ t.vars, y.name ∈ σ.names → rank y.name < rank name

theorem triangular_empty : (∅ : Substitution).Triangular :=
  ⟨fun _ => 0, fun _ _ h => nomatch h⟩

/-- A name may be bound to a term in which neither it nor a bound name occurs. -/
theorem Triangular.insert {σ : Substitution} (hσ : σ.Triangular) {x : Variable}
    (hx : x.name ∉ σ.names) {t : Term} (hxt : x ∉ t.vars) (ht : ∀ y ∈ t.vars, y.name ∉ σ.names) :
    (σ.insert x.name t).Triangular := by
  obtain ⟨rank, hrank⟩ := hσ
  -- the new name comes below all others
  refine ⟨fun name => if name = x.name then 0 else rank name + 1, ?_⟩
  intro name u hu
  rw [bindings_insert hx, List.length_append, List.length_singleton, names_insert hx]
  rw [lookup_insert hx] at hu
  split at hu
  · rename_i heq
    cases hu
    refine ⟨by simp [heq], ?_⟩
    intro y hy hmem
    rcases List.mem_append.mp hmem with hmem | hmem
    · exact absurd hmem (ht y hy)
    · exact absurd (Variable.eq_of_name_eq (List.mem_singleton.mp hmem) ▸ hy) hxt
  · rename_i hne
    obtain ⟨hlength, hlower⟩ := hrank name u hu
    refine ⟨by simpa [hne] using hlength, ?_⟩
    intro y hy hmem
    simp only [if_neg hne]
    split
    · exact Nat.succ_pos _
    · rename_i hyx
      rcases List.mem_append.mp hmem with hmem | hmem
      · exact Nat.succ_lt_succ (hlower y hy hmem)
      · exact absurd (List.mem_singleton.mp hmem) hyx

/-- Chains of the given length reach names that are not bound. -/
theorem not_mem_names_of_mem_vars_resolve {σ : Substitution} {rank : String → Nat}
    (hrank : ∀ name t, σ.lookup name = some t →
      ∀ y ∈ t.vars, y.name ∈ σ.names → rank y.name < rank name)
    {depth : Nat} {t : Term} (ht : ∀ x ∈ t.vars, x.name ∈ σ.names → rank x.name < depth)
    {y : Variable} (hy : y ∈ (σ.resolve depth t).vars) : y.name ∉ σ.names := by
  induction depth generalizing t with
  | zero => exact fun hmem => absurd (ht y hy hmem) (Nat.not_lt_zero _)
  | succ depth ih =>
      obtain ⟨x, hx, hyx⟩ := Term.mem_vars_bind.mp hy
      split at hyx
      · rename_i u hu
        have hmem : x.name ∈ σ.names := mem_names.mpr ⟨u, lookup_eq_some_iff.mp hu⟩
        have hlt := ht x hx hmem
        refine ih ?_ hyx
        intro z hz hbound
        have hlower := hrank _ _ hu z hz hbound
        omega
      · rename_i hnone
        obtain rfl := List.mem_singleton.mp hyx
        exact lookup_eq_none_iff.mp hnone

/-- What a triangular substitution returns mentions no bound name. -/
theorem Triangular.not_mem_names {σ : Substitution} (hσ : σ.Triangular) {t : Term} {y : Variable}
    (hy : y ∈ (σ.apply t).vars) : y.name ∉ σ.names := by
  obtain ⟨rank, hrank⟩ := hσ
  have hlower := fun name t h => (hrank name t h).2
  refine not_mem_names_of_mem_vars_resolve hlower ?_ hy
  intro x _ hmem
  obtain ⟨u, hu⟩ := mem_names.mp hmem
  exact (hrank _ _ (lookup_eq_some_iff.mpr hu)).1

/-- Once a chain has ended, going on changes nothing. -/
theorem resolve_succ {σ : Substitution} {depth : Nat} {t : Term}
    (h : ∀ y ∈ (σ.resolve depth t).vars, y.name ∉ σ.names) :
    σ.resolve (depth + 1) t = σ.resolve depth t := by
  induction depth generalizing t with
  | zero =>
      refine Term.bind_eq_self ?_
      intro x hx
      rw [lookup_eq_none_iff.mpr (h x hx)]
  | succ depth ih =>
      rw [resolve]
      conv_rhs => rw [resolve]
      refine Term.bind_congr ?_
      intro x hx
      split
      · rename_i u hu
        refine ih fun y hy => h y (Term.mem_vars_bind.mpr ⟨x, hx, ?_⟩)
        simp only [hu]
        exact hy
      · rfl

theorem resolve_eq_bind (σ : Substitution) (depth : Nat) (t : Term) :
    σ.resolve depth t = t.bind fun x => σ.resolve depth (.var x) := by
  cases depth with
  | zero => exact (Term.bind_eq_self fun _ _ => rfl).symm
  | succ depth => rfl

/-- Applying a triangular substitution to variables is a solution of it. -/
theorem Triangular.solvedBy_apply {σ : Substitution} (hσ : σ.Triangular) :
    σ.SolvedBy fun x => σ.apply (.var x) := by
  intro x t ht
  have hsame : σ.apply (.var x) = σ.apply t := by
    obtain ⟨rank, hrank⟩ := hσ
    have hlower := fun name t h => (hrank name t h).2
    have hlength := (hrank _ _ ht).1
    obtain ⟨depth, hdepth⟩ :=
      Nat.exists_eq_succ_of_ne_zero (Nat.ne_of_gt (Nat.zero_lt_of_lt hlength))
    have hended : ∀ y ∈ (σ.resolve depth t).vars, y.name ∉ σ.names := fun y hy =>
      not_mem_names_of_mem_vars_resolve hlower (fun z hz hmem => by
        have hbelow := hlower _ _ ht z hz hmem
        omega) hy
    unfold apply
    rw [hdepth, Nat.succ_eq_add_one, resolve_succ hended, resolve, Term.bind_var]
    simp only [ht]
  calc σ.apply (.var x) = σ.apply t := hsame
    _ = t.bind fun y => σ.apply (.var y) := resolve_eq_bind σ _ t

end Substitution

end HornPlan
