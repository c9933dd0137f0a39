import HornPlan.Proofs.Applications
import HornPlan.Proofs.Instances

/-!
# What a composition does

The composition of two substitutions binds the names of the inner one to their terms under the outer
one, and the other names of the outer one as before (`lookup_joined`).  It is meant to act as the
two do, one after the other.  Two things come between:

* a term of the inner substitution may mention a name that both bind: the outer term is put in for
  it, where the inner one should have been followed;
* a term that is kept from the outer substitution may mention a name that the inner one binds, which
  is followed although the inner substitution has had its turn.

`ActsInTurn` says that neither makes a difference, and this is exactly when the composition acts as
it is meant to (`forall_apply_eq_iff`); where no such name is mentioned it does
(`Apart.actsInTurn`).  The argument goes through solutions.  Applying a substitution is its only
solution that leaves unbound names alone (`Triangular.forall_apply_var_eq_iff`), so that it is
enough to ask when the two substitutions in turn are one.

Whether or not this is so, the composition and the inner substitution have the same solutions among
those of the outer one (`solvedBy_joined_iff`).
-/

namespace HornPlan.Substitution

variable {outer inner ρ σ : Substitution} {x : Variable} {t : Term}

/-! ## Bindings of a composition -/

theorem lookup_mapTerms (σ : Substitution) (f : Term → Term) (name : String) :
    (σ.mapTerms f).lookup name = (σ.lookup name).map f := by
  ext u
  rw [lookup_eq_some_iff, Option.map_eq_some_iff]
  simp only [lookup_eq_some_iff]
  constructor
  · intro hu
    obtain ⟨⟨other, t⟩, hmem, heq⟩ := List.mem_map.mp hu
    cases heq
    exact ⟨t, hmem, rfl⟩
  · rintro ⟨t, ht, rfl⟩
    exact List.mem_map.mpr ⟨(name, t), ht, rfl⟩

theorem lookup_filter (σ : Substitution) (keep : String → Term → Bool) (name : String) :
    (σ.filter keep).lookup name = (σ.lookup name).filter (keep name) := by
  ext u
  rw [lookup_eq_some_iff, Option.filter_eq_some_iff, lookup_eq_some_iff]
  exact List.mem_filter

theorem isIdentity_iff : isIdentity x.name t ↔ t = .var x := by
  cases t with
  | var y =>
      rw [isIdentity, beq_iff_eq, Term.var.injEq]
      exact ⟨Variable.eq_of_name_eq, congrArg Variable.name⟩
  | _ => simp [isIdentity]

theorem eq_of_checkAcyclic {τ : Substitution} (h : σ.checkAcyclic = .ok τ) : τ = σ := by
  unfold checkAcyclic at h
  split at h
  · exact (Except.ok.inj h).symm
  · cases h

/-- The inner terms under the outer substitution, then the other bindings of the outer one, without
bindings of a variable to itself. -/
def joined (outer inner : Substitution) : Substitution :=
  (outer.bindings.foldl (fun σ binding => σ.insertNew binding.1 binding.2)
    (inner.mapTerms outer.apply)).filter fun name t => !isIdentity name t

theorem compose_eq_ok (h : outer.compose inner = .ok ρ) : outer.checkAcyclic = .ok outer ∧
    inner.checkAcyclic = .ok inner ∧ ρ.checkAcyclic = .ok ρ ∧ ρ = outer.joined inner := by
  rw [compose] at h
  obtain ⟨τ, houter, hafter⟩ := bind_eq_ok.mp h
  obtain rfl := eq_of_checkAcyclic houter
  obtain ⟨υ, hinner, hlast⟩ := bind_eq_ok.mp hafter
  obtain rfl := eq_of_checkAcyclic hinner
  obtain ⟨_, -, hρ⟩ := bind_eq_ok.mp hlast
  obtain rfl := eq_of_checkAcyclic hρ
  exact ⟨houter, hinner, hρ, rfl⟩

theorem Loopfree.compose_eq (hσ : outer.Loopfree) (hinner : inner.Loopfree)
    (houter' : outer.IsProper) (hinner' : inner.IsProper) :
    outer.compose inner = (outer.joined inner).checkAcyclic := by
  have happlied :
      inner.bindings.forM (fun binding => do discard (outer.tryApply binding.2)) = .ok () :=
    forM_eq_ok fun binding hbinding => by
      rw [hσ.triangular.tryApply_eq houter' (hinner' binding hbinding)]
      rfl
  rw [compose, hσ.checkAcyclic_eq houter', ok_bind, hinner.checkAcyclic_eq hinner', ok_bind,
    happlied, ok_bind]
  rfl

theorem lookup_joined (outer inner : Substitution) (name : String) :
    (outer.joined inner).lookup name =
    (((inner.lookup name).map outer.apply).or (outer.lookup name)).filter (!isIdentity name ·) := by
  rw [joined, lookup_filter, lookup_foldl_insertNew, lookup_mapTerms]
  rfl

theorem isProper_joined (houter : outer.IsProper) (hinner : inner.IsProper) :
    (outer.joined inner).IsProper := by
  rintro ⟨name, t⟩ hmem
  have hlookup := lookup_eq_some_iff.mpr hmem
  rw [lookup_joined, Option.filter_eq_some_iff, Option.or_eq_some_iff, Option.map_eq_some_iff]
    at hlookup
  rcases hlookup.1 with ⟨u, hu, rfl⟩ | ⟨-, ht⟩
  · exact isProper_apply houter (isProper_of_lookup hinner hu)
  · exact isProper_of_lookup houter ht

/-! ## Solutions that leave unbound names alone -/

theorem Triangular.apply_of_lookup (hσ : σ.Triangular) (ht : σ.lookup x.name = some t) :
    σ.apply (.var x) = σ.apply t :=
  (hσ.solvedBy_apply x t ht).trans (apply_eq_bind σ t).symm

theorem apply_of_unbound (hnone : σ.lookup x.name = none) : σ.apply (.var x) = .var x := by
  refine apply_eq_self ?_
  intro y hy
  obtain rfl := List.mem_singleton.mp hy
  exact lookup_eq_none_iff.mp hnone

/-- **Applying a substitution is its only solution that leaves unbound names alone.** -/
theorem Triangular.forall_apply_var_eq_iff (hσ : σ.Triangular) {h : Variable → Term} :
    (∀ x, σ.apply (.var x) = h x) ↔ σ.SolvedBy h ∧ ∀ x : Variable, σ.lookup x.name = none →
    h x = .var x := by
  constructor
  · intro heq
    have hsame : (fun x => σ.apply (.var x)) = h := funext heq
    refine ⟨hsame ▸ hσ.solvedBy_apply, fun x hnone => ?_⟩
    rw [← heq, apply_of_unbound hnone]
  · rintro ⟨hsolved, hfixed⟩ x
    have hunbound : ∀ y ∈ (σ.apply (.var x)).vars, h y = .var y := fun y hy =>
      hfixed y (lookup_eq_none_iff.mpr (hσ.not_mem_names hy))
    calc σ.apply (.var x) = (σ.apply (.var x)).bind h := (Term.bind_eq_self hunbound).symm
      _ = h x := bind_apply hsolved (.var x)

/-! ## One after the other -/

/-- What becomes of a variable when one substitution is applied and then another. -/
def inTurn (outer inner : Substitution) (x : Variable) : Term :=
  outer.apply (inner.apply (.var x))

theorem bind_inTurn (outer inner : Substitution) (t : Term) :
    t.bind (outer.inTurn inner) = outer.apply (inner.apply t) := by
  rw [apply_eq_bind outer, apply_eq_bind inner, Term.bind_bind]
  exact Term.bind_congr fun x _ => apply_eq_bind outer _

/-- The three places in which a composition may part from what it stands for make no difference. -/
structure ActsInTurn (outer inner : Substitution) : Prop where
  /-- Inner terms may be put under the outer substitution before their own names are followed. -/
  early : ∀ x : Variable, ∀ t, inner.lookup x.name = some t →
    outer.apply (inner.apply (outer.apply t)) = outer.apply (inner.apply t)
  /-- A variable that would be bound to itself is what becomes of it. -/
  dropped : ∀ x : Variable, ∀ t, inner.lookup x.name = some t → outer.apply t = .var x →
    outer.apply (inner.apply t) = .var x
  /-- The inner substitution may be applied to an outer term that is kept. -/
  kept : ∀ x : Variable, ∀ u, x.name ∉ inner.names → outer.lookup x.name = some u →
    outer.apply (inner.apply u) = outer.apply u

section InTurn

variable (houter : outer.Triangular) (hinner : inner.Triangular)

include hinner in
theorem inTurn_of_inner (ht : inner.lookup x.name = some t) :
    outer.inTurn inner x = outer.apply (inner.apply t) := by
  rw [inTurn, hinner.apply_of_lookup ht]

theorem inTurn_of_not_mem (hx : x.name ∉ inner.names) :
    outer.inTurn inner x = outer.apply (.var x) := by
  rw [inTurn, apply_of_unbound (lookup_eq_none_iff.mpr hx)]

/-- A name of the inner substitution is bound to its term under the outer one. -/
theorem lookup_of_inner (ht : inner.lookup x.name = some t) (hne : outer.apply t ≠ .var x) :
    (outer.joined inner).lookup x.name = some (outer.apply t) := by
  rw [lookup_joined, ht, Option.map_some, Option.some_or, Option.filter_some, if_pos]
  simpa [← isIdentity_iff] using hne

/-- A name of the inner substitution is not bound if its term becomes the variable itself. -/
theorem lookup_of_dropped (ht : inner.lookup x.name = some t) (heq : outer.apply t = .var x) :
    (outer.joined inner).lookup x.name = none := by
  rw [lookup_joined, ht, Option.map_some, Option.some_or, Option.filter_some, if_neg]
  simpa [← isIdentity_iff] using heq

include houter in
/-- Any other name is bound as in the outer substitution. -/
theorem lookup_of_not_mem (hx : x.name ∉ inner.names) :
    (outer.joined inner).lookup x.name = outer.lookup x.name := by
  rw [lookup_joined, lookup_eq_none_iff.mpr hx, Option.map_none, Option.none_or]
  cases hlookup : outer.lookup x.name with
  | none => rfl
  | some u =>
      have hne : u ≠ .var x := by
        rintro rfl
        exact houter.loopfree x.name (.single ⟨.var x, hlookup, x, List.mem_singleton_self x, rfl⟩)
      rw [Option.filter_some, if_pos]
      simpa [← isIdentity_iff] using hne

include houter hinner in
theorem ActsInTurn.solvedBy (hturn : ActsInTurn outer inner) :
    (outer.joined inner).SolvedBy (outer.inTurn inner) := by
  intro x u hu
  cases hlookup : inner.lookup x.name with
  | some t =>
      by_cases heq : outer.apply t = .var x
      · rw [lookup_of_dropped hlookup heq] at hu
        cases hu
      · rw [lookup_of_inner hlookup heq] at hu
        cases hu
        rw [inTurn_of_inner hinner hlookup, bind_inTurn, hturn.early x t hlookup]
  | none =>
      have hx := lookup_eq_none_iff.mp hlookup
      rw [lookup_of_not_mem houter hx] at hu
      rw [inTurn_of_not_mem hx, bind_inTurn, hturn.kept x u hx hu, houter.apply_of_lookup hu]

include houter hinner in
theorem ActsInTurn.inTurn_of_unbound (hturn : ActsInTurn outer inner)
    (hnone : (outer.joined inner).lookup x.name = none) : outer.inTurn inner x = .var x := by
  cases hlookup : inner.lookup x.name with
  | some t =>
      have heq : outer.apply t = .var x := by
        by_contra hne
        cases hnone.symm.trans (lookup_of_inner hlookup hne)
      rw [inTurn_of_inner hinner hlookup, hturn.dropped x t hlookup heq]
  | none =>
      have hx := lookup_eq_none_iff.mp hlookup
      rw [inTurn_of_not_mem hx, apply_of_unbound]
      rw [← lookup_of_not_mem houter hx, hnone]

include houter hinner in
theorem actsInTurn_of_solvedBy (hsolved : (outer.joined inner).SolvedBy (outer.inTurn inner))
    (hfixed : ∀ x : Variable, (outer.joined inner).lookup x.name = none →
      outer.inTurn inner x = .var x) :
    ActsInTurn outer inner where
  early := by
    intro x t ht
    by_cases heq : outer.apply t = .var x
    · rw [heq, hinner.apply_of_lookup ht]
    · rw [← bind_inTurn, ← hsolved x _ (lookup_of_inner ht heq), inTurn_of_inner hinner ht]
  dropped := by
    intro x t ht heq
    rw [← inTurn_of_inner hinner ht, hfixed x (lookup_of_dropped ht heq)]
  kept := by
    intro x u hx hu
    rw [← bind_inTurn, ← hsolved x u ((lookup_of_not_mem houter hx).trans hu), inTurn_of_not_mem hx,
      houter.apply_of_lookup hu]

include houter hinner in
/-- **A composition acts as one substitution after the other exactly when the three places make no
difference.** -/
theorem forall_apply_eq_iff (hjoined : (outer.joined inner).Triangular) :
    (∀ x, (outer.joined inner).apply (.var x) = outer.inTurn inner x) ↔ ActsInTurn outer inner := by
  rw [hjoined.forall_apply_var_eq_iff]
  constructor
  · rintro ⟨hsolved, hfixed⟩
    exact actsInTurn_of_solvedBy houter hinner hsolved hfixed
  · intro hturn
    exact ⟨hturn.solvedBy houter hinner, fun x => hturn.inTurn_of_unbound houter hinner⟩

end InTurn

/-! ## A condition on names -/

/-- A variable in an inner term is not bound by both substitutions, and no outer term that is kept
mentions a name that the inner substitution binds. -/
structure Apart (outer inner : Substitution) : Prop where
  inner_terms : ∀ x : Variable, ∀ t, inner.lookup x.name = some t →
    ∀ y ∈ t.vars, y.name ∈ inner.names →
    y.name ∉ outer.names
  kept_terms : ∀ x : Variable, ∀ u, x.name ∉ inner.names → outer.lookup x.name = some u →
    ∀ y ∈ u.vars, y.name ∉ inner.names

theorem forall_mem_vars_resolve {P : Variable → Prop}
    (hpassed : ∀ x u, P x → σ.lookup x.name = some u → ∀ y ∈ u.vars, P y) {depth : Nat}
    (ht : ∀ x ∈ t.vars, P x) : ∀ y ∈ (σ.resolve depth t).vars, P y := by
  induction depth generalizing t with
  | zero => exact ht
  | succ depth ih =>
      intro y hy
      obtain ⟨x, hx, hyx⟩ := Term.mem_vars_bind.mp hy
      split at hyx
      · rename_i u hu
        exact ih (hpassed x u (ht x hx) hu) y hyx
      · obtain rfl := List.mem_singleton.mp hyx
        exact ht y hx

/-- The outer substitution does not lead from names that the inner one leaves alone to names that it
binds. -/
theorem Apart.not_mem_names (hapart : Apart outer inner) (ht : ∀ y ∈ t.vars, y.name ∉ inner.names) :
    ∀ y ∈ (outer.apply t).vars, y.name ∉ inner.names :=
  forall_mem_vars_resolve hapart.kept_terms ht

theorem Apart.actsInTurn (hapart : Apart outer inner) (houter : outer.Triangular)
    (hinner : inner.Triangular) :
    ActsInTurn outer inner where
  early := by
    intro x t ht
    rw [← bind_inTurn, ← bind_inTurn, apply_eq_bind, Term.bind_bind]
    refine Term.bind_congr fun y hy => ?_
    by_cases hmem : y.name ∈ inner.names
    · rw [apply_of_unbound (lookup_eq_none_iff.mpr (hapart.inner_terms x t ht y hy hmem)),
        Term.bind_var]
    · -- the inner substitution has nothing to do here
      have hleft : ∀ z ∈ (outer.apply (.var y)).vars, z.name ∉ inner.names :=
        hapart.not_mem_names fun z hz => List.mem_singleton.mp hz ▸ hmem
      rw [bind_inTurn, apply_eq_self hleft, apply_eq_self fun z hz => houter.not_mem_names hz,
        inTurn_of_not_mem hmem]
  dropped := by
    -- it never happens: some variable of the term becomes the variable, which the inner
    -- substitution binds
    intro x t ht heq
    have hx : x ∈ (outer.apply t).vars := heq ▸ List.mem_singleton_self x
    rw [apply_eq_bind] at hx
    obtain ⟨y, hy, hxy⟩ := Term.mem_vars_bind.mp hx
    by_cases hmem : y.name ∈ inner.names
    · rw [apply_of_unbound (lookup_eq_none_iff.mpr (hapart.inner_terms x t ht y hy hmem))] at hxy
      obtain rfl := List.mem_singleton.mp hxy
      exact absurd (.single ⟨t, ht, x, hy, rfl⟩) (hinner.loopfree x.name)
    · have hleft :=
        hapart.not_mem_names (t := .var y) (fun z hz => List.mem_singleton.mp hz ▸ hmem) x hxy
      exact absurd (mem_names.mpr ⟨t, lookup_eq_some_iff.mp ht⟩) hleft
  kept := by
    intro x u hx hu
    rw [apply_eq_self (hapart.kept_terms x u hx hu)]

/-! ## Compositions -/

/-- For a solution of the outer substitution the composition holds the equations of the inner
one. -/
theorem solvedBy_joined_iff (houter : outer.Triangular) {f : Variable → Term}
    (hf : outer.SolvedBy f) :
    (outer.joined inner).SolvedBy f ↔ inner.SolvedBy f := by
  constructor
  · intro hjoined x t ht
    by_cases heq : outer.apply t = .var x
    · rw [← bind_apply hf t, heq, Term.bind_var]
    · rw [hjoined x _ (lookup_of_inner ht heq), bind_apply hf]
  · intro hinner x u hu
    cases hlookup : inner.lookup x.name with
    | some t =>
        by_cases heq : outer.apply t = .var x
        · rw [lookup_of_dropped hlookup heq] at hu
          cases hu
        · rw [lookup_of_inner hlookup heq] at hu
          cases hu
          rw [bind_apply hf, hinner x t hlookup]
    | none =>
        rw [lookup_of_not_mem houter (lookup_eq_none_iff.mp hlookup)] at hu
        exact hf x u hu

/-- **What the composition of two substitutions does.**  It acts on every term as the two do, one
after the other, exactly when the names that may come between make no difference (`ActsInTurn`),
hence when they are not mentioned (`Apart`).  In any case, what solves the outer substitution solves
the composition exactly when it solves the inner one. -/
theorem IsProper.compose_exact (houter : outer.IsProper) (hinner : inner.IsProper)
    (h : outer.compose inner = .ok ρ) :
    ((∀ t, t.isProper → ∃ u, ρ.tryApply t = .ok u ∧ (inner.tryApply t >>= outer.tryApply) = .ok u) ↔
      ActsInTurn outer inner) ∧
    (Apart outer inner → ActsInTurn outer inner) ∧
    ∀ f, outer.SolvedBy f → (ρ.SolvedBy f ↔ inner.SolvedBy f) := by
  obtain ⟨hchecked, hchecked', hchecked'', rfl⟩ := compose_eq_ok h
  have htriangular := (houter.checkAcyclic_eq_ok_iff.mp hchecked).triangular
  have htriangular' := (hinner.checkAcyclic_eq_ok_iff.mp hchecked').triangular
  have hproper := isProper_joined houter hinner
  have hjoined := (hproper.checkAcyclic_eq_ok_iff.mp hchecked'').triangular
  refine ⟨?_, fun hapart => hapart.actsInTurn htriangular htriangular', fun f hf =>
    solvedBy_joined_iff htriangular hf⟩
  have hturn : ∀ t, t.isProper →
      (inner.tryApply t >>= outer.tryApply) = .ok (outer.apply (inner.apply t)) := by
    intro t ht
    rw [htriangular'.tryApply_eq hinner ht, ok_bind,
      htriangular.tryApply_eq houter (isProper_apply hinner ht)]
  -- both act on a term through what becomes of its variables
  rw [← forall_apply_eq_iff htriangular htriangular' hjoined]
  constructor
  · intro hsame x
    obtain ⟨u, hu, hu'⟩ := hsame (.var x) rfl
    rw [hjoined.tryApply_eq hproper rfl] at hu
    rw [hturn (.var x) rfl] at hu'
    exact (Except.ok.inj hu).trans (Except.ok.inj hu').symm
  · intro hsame t ht
    refine ⟨_, hjoined.tryApply_eq hproper ht, ?_⟩
    rw [hturn t ht, ← bind_inTurn, apply_eq_bind (outer.joined inner), funext hsame]

/-- The name `city` bound to a constant. -/
def cityIsOslo : Substitution :=
  (∅ : Substitution).insert "city" (.const ⟨"Oslo", by decide, by decide⟩)

/-- The name `place` bound to a term with the variable `city`. -/
def placeNearCity : Substitution :=
  (∅ : Substitution).insert "place" (.app (.text "Near" (by decide)) [.var ⟨"city", by decide⟩])

theorem closed_cityIsOslo : cityIsOslo.Closed := by
  unfold Closed Term.Closed
  decide

theorem compose_exact_placeNearCity : cityIsOslo.IsProper ∧ placeNearCity.IsProper ∧
    ∃ ρ : Substitution,
    cityIsOslo.compose placeNearCity = .ok ρ ∧ Apart cityIsOslo placeNearCity ∧ ∀ t, t.isProper →
      ∃ u, ρ.tryApply t = .ok u ∧ (placeNearCity.tryApply t >>= cityIsOslo.tryApply) = .ok u := by
  have houter := closed_cityIsOslo.isProper
  have hinner : placeNearCity.IsProper := by
    unfold IsProper
    decide
  have hloopfree : placeNearCity.Loopfree :=
    (triangular_empty.insert (x := ⟨"place", by decide⟩)
      (t := .app (.text "Near" (by decide)) [.var ⟨"city", by decide⟩])
      (by decide) (by decide) (by decide)).loopfree
  have hclosed : (cityIsOslo.joined placeNearCity).Closed := by
    unfold Closed Term.Closed
    decide
  have hcompose := (closed_cityIsOslo.triangular.loopfree.compose_eq hloopfree houter hinner).trans
    hclosed.checkAcyclic_eq
  have hapart : Apart cityIsOslo placeNearCity := by
    constructor
    · -- the inner substitution binds no name but `place`
      intro x t ht y hy hmem
      have hname : y.name = "place" := List.mem_singleton.mp hmem
      rw [hname]
      decide
    · -- what the outer substitution binds a name to has no variables
      intro x u hx hu y hy
      have hground := (closed_cityIsOslo.of_lookup hu).2
      rw [hground] at hy
      cases hy
  have hexact := houter.compose_exact hinner hcompose
  exact ⟨houter, hinner, _, hcompose, hapart, hexact.1.mpr (hexact.2.1 hapart)⟩

/-- The name `place` bound to the variable `city`, which is bound to another constant. -/
def placeThroughCity : Substitution :=
  ((∅ : Substitution).insert "place" (.var ⟨"city", by decide⟩)).insert "city"
    (.const ⟨"Rome", by decide, by decide⟩)

/-- A composition need not act as its two substitutions do: `place` becomes `Oslo` under the
composition, though the inner substitution makes it `Rome`, which the outer one leaves as it is. -/
theorem not_forall_acts_in_turn : ¬∀ outer inner ρ : Substitution, outer.IsProper → inner.IsProper →
    outer.compose inner = .ok ρ → ∀ t, t.isProper →
      ∃ u, ρ.tryApply t = .ok u ∧ (inner.tryApply t >>= outer.tryApply) = .ok u := by
  intro hall
  have hinner : placeThroughCity.IsProper := by
    unfold IsProper
    decide
  have hloopfree : placeThroughCity.Loopfree :=
    ((triangular_empty.insert (x := ⟨"place", by decide⟩) (t := .var ⟨"city", by decide⟩)
      (by decide) (by decide) (by decide)).insert (x := ⟨"city", by decide⟩)
      (t := .const ⟨"Rome", by decide, by decide⟩) (by decide)
      (by decide) (by decide)).loopfree
  have hclosed : (cityIsOslo.joined placeThroughCity).Closed := by
    unfold Closed Term.Closed
    decide
  have hcompose :=
    (closed_cityIsOslo.triangular.loopfree.compose_eq hloopfree closed_cityIsOslo.isProper
    hinner).trans hclosed.checkAcyclic_eq
  obtain ⟨u, hu, hu'⟩ :=
    hall _ _ _ closed_cityIsOslo.isProper hinner hcompose (.var ⟨"place", by decide⟩) rfl
  have hcomposed : (cityIsOslo.joined placeThroughCity).tryApply (.var ⟨"place", by decide⟩) =
    .ok (.const ⟨"Oslo", by decide, by decide⟩) := rfl
  have hinturn : (placeThroughCity.tryApply (.var ⟨"place", by decide⟩) >>= cityIsOslo.tryApply) =
    .ok (.const ⟨"Rome", by decide, by decide⟩) := rfl
  have hterms :=
    (Except.ok.inj (hcomposed.symm.trans hu)).trans (Except.ok.inj (hinturn.symm.trans hu')).symm
  have hnames : "Oslo" = "Rome" := congrArg Constant.name (Term.const.inj hterms)
  exact absurd hnames (by decide)

end HornPlan.Substitution
