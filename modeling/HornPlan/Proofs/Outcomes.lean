import HornPlan.Error
import Mathlib.Data.List.Forall2

/-!
# Computations that may fail

What a computation that succeeded says about its parts: a sequence of steps succeeds when each of
them does, and a list is mapped when every member is.
-/

namespace HornPlan

variable {α β ε : Type}

@[simp]
theorem ok_bind (a : α) (f : α → Except ε β) : (Except.ok a >>= f) = f a :=
  rfl

@[simp]
theorem error_bind (e : ε) (f : α → Except ε β) : (Except.error e >>= f) = .error e :=
  rfl

theorem bind_eq_ok {x : Except ε α} {f : α → Except ε β} {b : β} :
    x >>= f = .ok b ↔ ∃ a, x = .ok a ∧ f a = .ok b := by
  cases x with
  | error e => simp
  | ok a => simp

theorem bind_eq_error {x : Except ε α} {f : α → Except ε β} {e : ε} :
    x >>= f = .error e ↔ x = .error e ∨ ∃ a, x = .ok a ∧ f a = .error e := by
  cases x with
  | error e => simp
  | ok a => simp

theorem eq_ok_of_toOption {x : Except ε α} {a : α} (h : x.toOption = some a) : x = .ok a := by
  cases x with
  | error e => cases h
  | ok b => exact congrArg Except.ok (Option.some.inj h)

theorem exists_error_of_isNone {made : Except ε α} {a : α} (hmade : made = .ok a)
    {f : α → Except ε β} (h : (made.toOption.map fun a => (f a).toOption.isNone) = some true) :
    ∃ e, f a = .error e := by
  subst hmade
  replace h : (f a).toOption.isNone = true := Option.some.inj h
  cases hf : f a with
  | error e => exact ⟨e, rfl⟩
  | ok b =>
      rw [hf] at h
      cases h

theorem mapM_cons_eq_ok {f : α → Except ε β} {a : α} {as : List α} {out : List β} :
    (a :: as).mapM f = .ok out ↔ ∃ b bs, f a = .ok b ∧ as.mapM f = .ok bs ∧ out = b :: bs := by
  rw [List.mapM_cons]
  simp only [bind_eq_ok]
  constructor
  · rintro ⟨b, hb, bs, hbs, hout⟩
    exact ⟨b, bs, hb, hbs, (Except.ok.inj hout).symm⟩
  · rintro ⟨b, bs, hb, hbs, rfl⟩
    exact ⟨b, hb, bs, hbs, rfl⟩

theorem mapM_eq_ok {f : α → Except ε β} {as : List α} {bs : List β} :
    as.mapM f = .ok bs ↔ List.Forall₂ (fun a b => f a = .ok b) as bs := by
  induction as generalizing bs with
  | nil => simp [pure, Except.pure, eq_comm]
  | cons a as ih =>
      rw [mapM_cons_eq_ok]
      constructor
      · rintro ⟨b, bs, hb, hbs, rfl⟩
        exact List.Forall₂.cons hb (ih.mp hbs)
      · rintro (_ | ⟨hb, hbs⟩)
        exact ⟨_, _, hb, ih.mpr hbs, rfl⟩

theorem mapM_eq_ok_map {f : α → Except ε β} {g : α → β} {as : List α}
    (h : ∀ a ∈ as, f a = .ok (g a)) : as.mapM f = .ok (as.map g) := by
  rw [mapM_eq_ok, List.forall₂_map_right_iff, List.forall₂_same]
  exact h

theorem map_eq_of_mapM_eq_ok {f : α → Except ε β} {g : β → α} (hg : ∀ a b, f a = .ok b → g b = a)
    {as : List α} {bs : List β} (h : as.mapM f = .ok bs) : bs.map g = as := by
  have hpairs := mapM_eq_ok.mp h
  clear h
  induction hpairs with
  | nil => rfl
  | cons hab _ ih => rw [List.map_cons, hg _ _ hab, ih]

/-- A list is mapped up to the first member that is not. -/
theorem mapM_eq_error {f : α → Except ε β} {as : List α} {e : ε} :
    as.mapM f = .error e ↔
      ∃ earlier a later bs, as = earlier ++ a :: later ∧ earlier.mapM f = .ok bs ∧
      f a = .error e := by
  -- induction on the list: the first member fails, or the failure lies among the others
  induction as with
  | nil => simp [pure, Except.pure]
  | cons a as ih =>
      rw [List.mapM_cons]
      constructor
      · intro h
        rcases bind_eq_error.mp h with hfirst | ⟨b, hb, h⟩
        · exact ⟨[], a, as, [], rfl, rfl, hfirst⟩
        · rcases bind_eq_error.mp h with hrest | ⟨bs, -, h⟩
          · obtain ⟨earlier, c, later, bs, rfl, hearlier, hc⟩ := ih.mp hrest
            exact ⟨a :: earlier, c, later, b :: bs, rfl,
              mapM_cons_eq_ok.mpr ⟨b, bs, hb, hearlier, rfl⟩, hc⟩
          · cases h
      · rintro ⟨earlier, c, later, bs, heq, hearlier, hc⟩
        cases earlier with
        | nil =>
            obtain ⟨rfl, rfl⟩ := List.cons.inj heq
            rw [hc, error_bind]
        | cons d earlier =>
            obtain ⟨rfl, rfl⟩ := List.cons.inj heq
            obtain ⟨b, bs, hb, hbs, -⟩ := mapM_cons_eq_ok.mp hearlier
            rw [hb, ok_bind, ih.mpr ⟨earlier, c, later, bs, rfl, hbs, hc⟩, error_bind]

theorem exists_of_mapM_eq_error {f : α → Except ε β} {as : List α} {e : ε}
    (h : as.mapM f = .error e) : ∃ a ∈ as, f a = .error e := by
  obtain ⟨earlier, a, later, -, rfl, -, ha⟩ := mapM_eq_error.mp h
  exact ⟨a, List.mem_append_right _ List.mem_cons_self, ha⟩

theorem exists_mapM_eq_ok {f : α → Except ε β} {P : α → β → Prop} {as : List α}
    (h : ∀ a ∈ as, ∃ b, f a = .ok b ∧ P a b) :
    ∃ bs, as.mapM f = .ok bs ∧ List.Forall₂ P as bs := by
  induction as with
  | nil => exact ⟨[], rfl, List.Forall₂.nil⟩
  | cons a as ih =>
      obtain ⟨⟨b, hb, hab⟩, hrest⟩ := List.forall_mem_cons.mp h
      obtain ⟨bs, hbs, hpairs⟩ := ih hrest
      exact ⟨b :: bs, mapM_cons_eq_ok.mpr ⟨b, bs, hb, hbs, rfl⟩, List.Forall₂.cons hab hpairs⟩

theorem exists_of_mem_right {R : α → β → Prop} {as : List α} {bs : List β}
    (h : List.Forall₂ R as bs) {b : β} (hb : b ∈ bs) : ∃ a ∈ as, R a b := by
  induction h with
  | nil => exact absurd hb List.not_mem_nil
  | cons hab _ ih =>
      rcases List.mem_cons.mp hb with rfl | hb
      · exact ⟨_, List.mem_cons_self .., hab⟩
      · obtain ⟨a, ha, hR⟩ := ih hb
        exact ⟨a, List.mem_cons_of_mem _ ha, hR⟩

theorem exists_of_mem_left {R : α → β → Prop} {as : List α} {bs : List β} (h : List.Forall₂ R as bs)
    {a : α} (ha : a ∈ as) : ∃ b ∈ bs, R a b :=
  exists_of_mem_right h.flip ha

theorem forM_eq_ok {f : α → Except ε Unit} {as : List α} (h : ∀ a ∈ as, f a = .ok ()) :
    as.forM f = .ok () := by
  induction as with
  | nil => rfl
  | cons a as ih =>
      rw [List.forM, h a (List.mem_cons_self ..), ok_bind]
      exact ih fun b hb => h b (List.mem_cons_of_mem _ hb)

theorem anyM_eq_ok {f : α → Except ε Bool} {g : α → Bool} {as : List α}
    (h : ∀ a ∈ as, f a = .ok (g a)) : as.anyM f = .ok (as.any g) := by
  induction as with
  | nil => rfl
  | cons a as ih =>
      have hrest := ih fun b hb => h b (List.mem_cons_of_mem _ hb)
      rw [List.anyM, h a (List.mem_cons_self ..), ok_bind, hrest, List.any_cons]
      cases g a <;> rfl

theorem allM_eq_ok {f : α → Except ε Bool} {g : α → Bool} {as : List α}
    (h : ∀ a ∈ as, f a = .ok (g a)) : as.allM f = .ok (as.all g) := by
  induction as with
  | nil => rfl
  | cons a as ih =>
      have hrest := ih fun b hb => h b (List.mem_cons_of_mem _ hb)
      rw [List.allM, h a (List.mem_cons_self ..), ok_bind, hrest, List.all_cons]
      cases g a <;> rfl

end HornPlan
