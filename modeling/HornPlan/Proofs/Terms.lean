import HornPlan.Code
import HornPlan.Proofs.Lists

/-!
# Proper terms

A term may hold what a document puts in the place of a name, a symbol or a term.  A term is *proper*
when it holds nothing of the kind: every symbol in it is a text.  What is said about inference is
said of proper terms, and for these the equality by value that programs compute is equality.  A term
is *built* when at least no bare value stands in the place of a term, which is all that the
constructors of terms look at.

The rest of the file is the algebra of `bind`, the replacement of all variables at once: how it
composes, what it depends on, and which variables and subterms it leaves.
-/

namespace HornPlan

theorem Variable.eq_of_name_eq {x y : Variable} (h : x.name = y.name) : x = y := by
  cases x
  cases y
  cases h
  rfl

namespace Term

@[elab_as_elim]
theorem inductionOnArgs {motive : Term → Prop} (var : ∀ x, motive (.var x))
    (const : ∀ c, motive (.const c)) (app : ∀ f args, (∀ t ∈ args, motive t) → motive (.app f args))
    (foreign : ∀ f, motive (.foreign f)) : ∀ t, motive t
  | .var x => var x
  | .const c => const c
  | .app f args => app f args fun t ht =>
      have := List.sizeOf_lt_of_mem ht
      inductionOnArgs var const app foreign t
  | .foreign f => foreign f

/-! ## Proper terms -/

mutual
/-- Every symbol of a term is a text, and nothing in it stands in the place of a term. -/
def isProper : Term → Bool
  | var _ => true
  | const _ => true
  | app f args => f.isText && areProper args
  | foreign _ => false
def areProper : List Term → Bool
  | [] => true
  | t :: ts => isProper t && areProper ts
end

theorem areProper_iff {ts : List Term} : areProper ts ↔ ∀ t ∈ ts, t.isProper := by
  induction ts with
  | nil => simp [areProper]
  | cons t ts ih => simp [areProper, ih]

@[simp] theorem isProper_var (x : Variable) : (var x).isProper = true := rfl

@[simp] theorem isProper_const (c : Constant) : (const c).isProper = true := rfl

@[simp] theorem isProper_app {f : Symbol} {args : List Term} :
    (app f args).isProper ↔ f.isText ∧ ∀ t ∈ args, t.isProper := by
  simp [isProper, areProper_iff]

@[simp] theorem isProper_foreign (f : Foreign) : (foreign f).isProper = false := rfl

/-! ## Built terms -/

mutual
/-- No bare value stands in the place of a term.  Names and symbols may be anything. -/
def isBuilt : Term → Bool
  | var _ => true
  | const _ => true
  | app _ args => areBuilt args
  | foreign (.listed _ _) => true
  | foreign (.value _) => false
def areBuilt : List Term → Bool
  | [] => true
  | t :: ts => isBuilt t && areBuilt ts
end

theorem areBuilt_iff {ts : List Term} : areBuilt ts ↔ ∀ t ∈ ts, t.isBuilt := by
  induction ts with
  | nil => simp [areBuilt]
  | cons t ts ih => simp [areBuilt, ih]

@[simp] theorem isBuilt_app {f : Symbol} {args : List Term} :
    (app f args).isBuilt ↔ ∀ t ∈ args, t.isBuilt := by
  rw [isBuilt, areBuilt_iff]

theorem isBuilt_of_isProper {t : Term} (ht : t.isProper) : t.isBuilt := by
  induction t using Term.inductionOnArgs with
  | app f args ih => exact isBuilt_app.mpr fun t hmem => ih t hmem ((isProper_app.mp ht).2 t hmem)
  | foreign f => cases ht
  | _ => rfl

end Term

theorem Symbol.beq_iff_eq_of_isText {f g : Symbol} (h : f.isText ∨ g.isText) : f == g ↔ f = g := by
  cases f with
  | text s hs =>
      cases g with
      | text t ht => exact (beq_iff_eq (α := String)).trans (by rw [text.injEq])
      | value => exact iff_of_false Bool.false_ne_true Symbol.noConfusion
  | value =>
      cases g with
      | text t ht => exact iff_of_false Bool.false_ne_true Symbol.noConfusion
      | value => simp [isText] at h

namespace Term

theorem eq_of_sameList {ts us : List Term} (hts : ∀ t ∈ ts, ∀ u, t == u → t = u)
    (h : sameList ts us) : ts = us := by
  induction ts generalizing us with
  | nil =>
      cases us with
      | nil => rfl
      | cons => cases h
  | cons t ts ih =>
      cases us with
      | nil => cases h
      | cons u us =>
          obtain ⟨htu, hrest⟩ := Bool.and_eq_true_iff.mp h
          rw [hts t (List.mem_cons_self ..) u htu,
            ih (fun s hs => hts s (List.mem_cons_of_mem _ hs)) hrest]

/-- Proper terms of the same value are the same term. -/
theorem eq_of_beq_of_isProper {t u : Term} (ht : t.isProper) (h : t == u) : t = u := by
  induction t using Term.inductionOnArgs generalizing u with
  | var x =>
      cases u with
      | var y => exact congrArg Term.var (eq_of_beq (α := Variable) h)
      | _ => cases h
  | const c =>
      cases u with
      | const d => exact congrArg Term.const (eq_of_beq (α := Constant) h)
      | _ => cases h
  | app f ts ih =>
      cases u with
      | app g us =>
          obtain ⟨hf, hts⟩ := isProper_app.mp ht
          obtain ⟨hfg, hsame⟩ := Bool.and_eq_true_iff.mp h
          rw [(Symbol.beq_iff_eq_of_isText (Or.inl hf)).mp hfg,
            eq_of_sameList (fun t ht u htu => ih t ht (hts t ht) htu) hsame]
      | _ => cases h
  | foreign f => cases ht

theorem beq_iff_eq_of_isProper {t u : Term} (ht : t.isProper) : t == u ↔ t = u :=
  ⟨eq_of_beq_of_isProper ht, fun h => h ▸ BEq.rfl⟩

/-! ## Variables and subterms -/

@[simp] theorem vars_var (x : Variable) : (var x).vars = [x] := rfl

@[simp] theorem vars_const (c : Constant) : (const c).vars = [] := rfl

@[simp] theorem mem_vars_app {x : Variable} {f : Symbol} {args : List Term} :
    x ∈ (app f args).vars ↔ ∃ t ∈ args, x ∈ t.vars := by
  rw [vars, varsList_eq_flatMap, List.mem_flatMap]

theorem mem_subterms_self (t : Term) : t ∈ t.subterms := by
  cases t <;> simp [subterms]

theorem subtermsList_eq_flatMap (ts : List Term) : subtermsList ts = ts.flatMap subterms := by
  induction ts with
  | nil => rfl
  | cons t ts ih => rw [subtermsList, ih, List.flatMap_cons]

theorem mem_subterms_app {s : Term} {f : Symbol} {args : List Term} :
    s ∈ (app f args).subterms ↔ s = app f args ∨ ∃ t ∈ args, s ∈ t.subterms := by
  rw [subterms, List.mem_cons, subtermsList_eq_flatMap, List.mem_flatMap]

theorem mem_subterms_trans {r s t : Term} (hrs : r ∈ s.subterms) (hst : s ∈ t.subterms) :
    r ∈ t.subterms := by
  induction t using Term.inductionOnArgs with
  | app f args ih =>
      rcases mem_subterms_app.mp hst with rfl | ⟨u, hu, hsu⟩
      · exact hrs
      · exact mem_subterms_app.mpr (Or.inr ⟨u, hu, ih u hu hsu⟩)
  | _ =>
      obtain rfl := List.mem_singleton.mp hst
      exact hrs

theorem vars_subset_of_mem_subterms {s t : Term} (h : s ∈ t.subterms) : s.vars ⊆ t.vars := by
  induction t using Term.inductionOnArgs with
  | app f args ih =>
      rcases mem_subterms_app.mp h with rfl | ⟨u, hu, hsu⟩
      · exact List.Subset.refl _
      · intro x hx
        exact mem_vars_app.mpr ⟨u, hu, ih u hu hsu hx⟩
  | _ =>
      obtain rfl := List.mem_singleton.mp h
      exact List.Subset.refl _

theorem isProper_of_mem_subterms {s t : Term} (ht : t.isProper) (h : s ∈ t.subterms) :
    s.isProper := by
  induction t using Term.inductionOnArgs with
  | app f args ih =>
      rcases mem_subterms_app.mp h with rfl | ⟨u, hu, hsu⟩
      · exact ht
      · exact ih u hu ((isProper_app.mp ht).2 u hu) hsu
  | _ =>
      obtain rfl := List.mem_singleton.mp h
      exact ht

/-! ## Replacing variables -/

@[simp] theorem bind_var (f : Variable → Term) (x : Variable) : (var x).bind f = f x := rfl

@[simp] theorem bind_const (f : Variable → Term) (c : Constant) : (const c).bind f = const c := rfl

@[simp] theorem bind_app (f : Variable → Term) (g : Symbol) (args : List Term) :
    (app g args).bind f = app g (args.map (bind f)) := by
  rw [bind, bindList_eq_map]

@[simp] theorem bind_foreign (f : Variable → Term) (a : Foreign) :
    (foreign a).bind f = foreign a := rfl

theorem bind_bind (f g : Variable → Term) (t : Term) :
    (t.bind f).bind g = t.bind fun x => (f x).bind g := by
  induction t using Term.inductionOnArgs with
  | app s args ih =>
      simp only [bind_app, List.map_map, Function.comp_def]
      rw [List.map_congr_left ih]
  | _ => simp

theorem bind_congr {f g : Variable → Term} {t : Term} (h : ∀ x ∈ t.vars, f x = g x) :
    t.bind f = t.bind g := by
  induction t using Term.inductionOnArgs with
  | var x => exact h x (List.mem_singleton_self x)
  | app s args ih =>
      rw [bind_app, bind_app, List.map_congr_left fun u hu =>
        ih u hu fun x hx => h x (mem_vars_app.mpr ⟨u, hu, hx⟩)]
  | _ => rfl

/-- Terms for variables can be read off the term in which they were put. -/
theorem eq_of_bind_eq {f g : Variable → Term} {t : Term} (h : t.bind f = t.bind g) :
    ∀ x ∈ t.vars, f x = g x := by
  induction t using Term.inductionOnArgs with
  | var y =>
      intro x hx
      obtain rfl := List.mem_singleton.mp hx
      exact h
  | app s args ih =>
      intro x hx
      obtain ⟨u, hu, hxu⟩ := mem_vars_app.mp hx
      rw [bind_app, bind_app, Term.app.injEq] at h
      exact ih u hu (List.map_inj_left.mp h.2 u hu) x hxu
  | _ => exact fun x hx => absurd hx List.not_mem_nil

theorem bind_eq_self {f : Variable → Term} {t : Term} (h : ∀ x ∈ t.vars, f x = var x) :
    t.bind f = t := by
  induction t using Term.inductionOnArgs with
  | var x => exact h x (List.mem_singleton_self x)
  | app s args ih =>
      rw [bind_app, List.map_congr_left fun u hu =>
        ih u hu fun x hx => h x (mem_vars_app.mpr ⟨u, hu, hx⟩), List.map_id']
  | _ => rfl

theorem mem_vars_bind {f : Variable → Term} {t : Term} {y : Variable} :
    y ∈ (t.bind f).vars ↔ ∃ x ∈ t.vars, y ∈ (f x).vars := by
  induction t using Term.inductionOnArgs with
  | var x => simp
  | app s args ih =>
      rw [bind_app, mem_vars_app]
      constructor
      · rintro ⟨_, hu, hy⟩
        obtain ⟨u, hmem, rfl⟩ := List.mem_map.mp hu
        obtain ⟨x, hx, hy⟩ := (ih u hmem).mp hy
        exact ⟨x, mem_vars_app.mpr ⟨u, hmem, hx⟩, hy⟩
      · rintro ⟨x, hx, hy⟩
        obtain ⟨u, hu, hxu⟩ := mem_vars_app.mp hx
        exact ⟨u.bind f, List.mem_map_of_mem hu, (ih u hu).mpr ⟨x, hxu, hy⟩⟩
  | const c => simp
  | foreign a => simp [vars]

theorem isProper_bind {f : Variable → Term} {t : Term} :
    (t.bind f).isProper ↔ t.isProper ∧ ∀ x ∈ t.vars, (f x).isProper := by
  induction t using Term.inductionOnArgs with
  | var x => simp
  | app s args ih =>
      rw [bind_app, isProper_app, isProper_app, List.forall_mem_map, and_assoc]
      refine and_congr_right fun _ => ⟨fun h => ⟨fun u hu => ((ih u hu).mp (h u hu)).1, ?_⟩, ?_⟩
      · intro x hx
        obtain ⟨u, hu, hxu⟩ := mem_vars_app.mp hx
        exact ((ih u hu).mp (h u hu)).2 x hxu
      · rintro ⟨hargs, hvars⟩ u hu
        exact (ih u hu).mpr ⟨hargs u hu, fun x hx => hvars x (mem_vars_app.mpr ⟨u, hu, hx⟩)⟩
  | const c => simp
  | foreign a => simp

theorem mem_subterms_bind {f : Variable → Term} {t : Term} {x : Variable} (hx : x ∈ t.vars) :
    f x ∈ (t.bind f).subterms := by
  induction t using Term.inductionOnArgs with
  | var y =>
      obtain rfl := List.mem_singleton.mp hx
      exact mem_subterms_self _
  | app s args ih =>
      obtain ⟨u, hu, hxu⟩ := mem_vars_app.mp hx
      rw [bind_app]
      exact mem_subterms_app.mpr (Or.inr ⟨u.bind f, List.mem_map_of_mem hu, ih u hu hxu⟩)
  | _ => exact absurd hx List.not_mem_nil

theorem sizeOf_le_of_mem_subterms {s t : Term} (h : s ∈ t.subterms) : sizeOf s ≤ sizeOf t := by
  induction t using Term.inductionOnArgs with
  | app f args ih =>
      rcases mem_subterms_app.mp h with rfl | ⟨u, hu, hsu⟩
      · exact Nat.le_refl _
      · have hlt := List.sizeOf_lt_of_mem hu
        have hle := ih u hu hsu
        simp only [app.sizeOf_spec]
        omega
  | _ =>
      obtain rfl := List.mem_singleton.mp h
      exact Nat.le_refl _

/-- A variable cannot stand for a compound term in which it occurs. -/
theorem ne_bind_of_mem_vars {f : Variable → Term} {x : Variable} {g : Symbol} {args : List Term}
    (hx : x ∈ (app g args).vars) : f x ≠ (app g args).bind f := by
  obtain ⟨u, hu, hxu⟩ := mem_vars_app.mp hx
  have hle := sizeOf_le_of_mem_subterms (mem_subterms_bind (f := f) hxu)
  have hlt := List.sizeOf_lt_of_mem (List.mem_map_of_mem (f := bind f) hu)
  intro heq
  rw [heq, bind_app, app.sizeOf_spec] at hle
  omega

/-! ## Closed terms -/

/-- A proper term without variables. -/
def Closed (t : Term) : Prop :=
  t.isProper ∧ t.vars = []

theorem Closed.bind_eq {f : Variable → Term} {t : Term} (ht : t.Closed) : t.bind f = t :=
  bind_eq_self fun x hx => by
    rw [ht.2] at hx
    exact absurd hx List.not_mem_nil

theorem Closed.of_mem_subterms {s t : Term} (ht : t.Closed) (h : s ∈ t.subterms) : s.Closed :=
  ⟨isProper_of_mem_subterms ht.1 h,
    List.subset_nil.mp (ht.2 ▸ vars_subset_of_mem_subterms h)⟩

theorem closed_bind {f : Variable → Term} {t : Term} :
    (t.bind f).Closed ↔ t.isProper ∧ ∀ x ∈ t.vars, (f x).Closed := by
  simp only [Closed, isProper_bind, List.eq_nil_iff_forall_not_mem, mem_vars_bind]
  grind

theorem haveListedVariable_iff {ts : List Term} :
    haveListedVariable ts ↔ ∃ t ∈ ts, t.hasListedVariable := by
  induction ts with
  | nil => simp [haveListedVariable]
  | cons t ts ih => simp [haveListedVariable, ih]

theorem hasListedVariable_eq_false {t : Term} (ht : t.isProper) : t.hasListedVariable = false := by
  induction t using Term.inductionOnArgs with
  | app f args ih =>
      rw [hasListedVariable, Bool.eq_false_iff, Ne, haveListedVariable_iff]
      rintro ⟨u, hu, hlisted⟩
      rw [ih u hu ((isProper_app.mp ht).2 u hu)] at hlisted
      cases hlisted
  | foreign f => cases ht
  | _ => rfl

theorem isGround_iff_closed {t : Term} (ht : t.isProper) : t.isGround ↔ t.Closed := by
  simp [isGround, Closed, ht, hasListedVariable_eq_false ht]

theorem areIndexable_iff {ts : List Term} : areIndexable ts ↔ ∀ t ∈ ts, t.isIndexable := by
  induction ts with
  | nil => simp [areIndexable]
  | cons t ts ih => simp [areIndexable, ih]

theorem isIndexable_of_isProper {t : Term} (ht : t.isProper) : t.isIndexable := by
  induction t using Term.inductionOnArgs with
  | app f args ih =>
      obtain ⟨hf, hargs⟩ := isProper_app.mp ht
      have hsymbol : f.isIndexable = true := by
        cases f with
        | text => rfl
        | value => cases hf
      rw [isIndexable, hsymbol, Bool.true_and, areIndexable_iff]
      intro u hu
      exact ih u hu (hargs u hu)
  | foreign f => cases ht
  | _ => rfl

theorem arePrintable_iff {ts : List Term} : arePrintable ts ↔ ∀ t ∈ ts, t.isPrintable := by
  induction ts with
  | nil => simp [arePrintable]
  | cons t ts ih => simp [arePrintable, ih]

theorem isPrintable_of_isProper {t : Term} (ht : t.isProper) : t.isPrintable := by
  induction t using Term.inductionOnArgs with
  | app f args ih =>
      obtain ⟨hf, hargs⟩ := isProper_app.mp ht
      rw [isPrintable, hf, Bool.true_or, Bool.true_and, arePrintable_iff]
      intro u hu
      exact ih u hu (hargs u hu)
  | foreign f => cases ht
  | _ => rfl

end Term

/-! ## Atoms -/

namespace Atom

/-- An atom that is proper as a term. -/
def isProper (a : Atom) : Bool :=
  a.toTerm.isProper

/-- A proper atom without variables. -/
def Closed (a : Atom) : Prop :=
  a.toTerm.Closed

theorem toTerm_injective : Function.Injective toTerm := by
  rintro ⟨p, ts⟩ ⟨q, us⟩ h
  cases h
  rfl

theorem toTerm_bind (f : Variable → Term) (a : Atom) : (a.bind f).toTerm = a.toTerm.bind f :=
  (Term.bind_app f a.predicate a.args).symm

theorem isProper_iff {a : Atom} : a.isProper ↔ a.predicate.isText ∧ ∀ t ∈ a.args, t.isProper :=
  Term.isProper_app

theorem beq_iff_eq_of_isProper {a b : Atom} (ha : a.isProper) : a == b ↔ a = b := by
  rw [beq_eq_toTerm, Term.beq_iff_eq_of_isProper ha, toTerm_injective.eq_iff]

theorem contains_iff_mem {as : List Atom} {a : Atom} (ha : a.isProper) :
    as.contains a ↔ a ∈ as := by
  rw [List.contains_eq_any_beq, List.any_eq_true]
  constructor
  · rintro ⟨b, hb, hab⟩
    exact (beq_iff_eq_of_isProper ha).mp hab ▸ hb
  · intro h
    exact ⟨a, h, BEq.rfl⟩

theorem mem_eraseDups_iff {as : List Atom} (has : ∀ a ∈ as, a.isProper) {a : Atom} :
    a ∈ as.eraseDups ↔ a ∈ as :=
  HornPlan.mem_eraseDups_iff fun b hb _ => (beq_iff_eq_of_isProper (has b hb)).mp

theorem bind_bind (f g : Variable → Term) (a : Atom) :
    (a.bind f).bind g = a.bind fun x => (f x).bind g :=
  toTerm_injective (by simp only [toTerm_bind, Term.bind_bind])

theorem bind_congr {f g : Variable → Term} {a : Atom} (h : ∀ x ∈ a.vars, f x = g x) :
    a.bind f = a.bind g :=
  toTerm_injective (by
    rw [toTerm_bind, toTerm_bind]
    exact Term.bind_congr h)

theorem bind_eq_self (a : Atom) : a.bind Term.var = a :=
  toTerm_injective (by
    rw [toTerm_bind]
    exact Term.bind_eq_self fun _ _ => rfl)

theorem Closed.bind_eq {f : Variable → Term} {a : Atom} (ha : a.Closed) : a.bind f = a :=
  toTerm_injective (by rw [toTerm_bind, Term.Closed.bind_eq ha])

theorem closed_bind {f : Variable → Term} {a : Atom} :
    (a.bind f).Closed ↔ a.isProper ∧ ∀ x ∈ a.vars, (f x).Closed := by
  rw [Closed, toTerm_bind]
  exact Term.closed_bind

theorem mem_vars {a : Atom} {x : Variable} : x ∈ a.vars ↔ ∃ t ∈ a.args, x ∈ t.vars :=
  Term.mem_vars_app (f := a.predicate)

theorem mem_vars_bind {f : Variable → Term} {a : Atom} {y : Variable} :
    y ∈ (a.bind f).vars ↔ ∃ x ∈ a.vars, y ∈ (f x).vars := by
  have hterm := Term.mem_vars_bind (f := f) (t := a.toTerm) (y := y)
  rwa [← toTerm_bind] at hterm

theorem isProper_bind {f : Variable → Term} {a : Atom} :
    (a.bind f).isProper ↔ a.isProper ∧ ∀ x ∈ a.vars, (f x).isProper := by
  rw [isProper, toTerm_bind]
  exact Term.isProper_bind

theorem isGround_iff_closed {a : Atom} (ha : a.isProper) : a.isGround ↔ a.Closed :=
  Term.isGround_iff_closed ha

theorem key_beq_iff {a b : Atom} (h : a.isProper ∨ b.isProper) :
    a.key == b.key ↔ a.key = b.key := by
  have hsymbol : a.predicate == b.predicate ↔ a.predicate = b.predicate :=
    Symbol.beq_iff_eq_of_isText (h.imp (fun ha => (isProper_iff.mp ha).1) fun hb =>
      (isProper_iff.mp hb).1)
  rw [key, key, Prod.mk.injEq, ← hsymbol]
  exact Bool.and_eq_true_iff.trans (and_congr_right fun _ => beq_iff_eq)

theorem key_bind (f : Variable → Term) (a : Atom) : (a.bind f).key = a.key := by
  simp [key, bind]

end Atom

end HornPlan
