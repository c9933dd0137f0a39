import HornPlan.Proofs.Substitutions
import HornPlan.Unification
import Mathlib.Data.Finset.Card

/-!
# What unification finds

Two terms become equal under an assignment exactly when the assignment removes the leftmost
difference between them and makes the pairs to the right of it equal (`Difference.Between`).  So
each binding that `solve` makes is forced, and nothing else is: the extension that `unifyPairs?`
returns has the solutions of the substitution that make the pairs equal, and where it returns none
there is no such solution.

The budget of `solve` never runs out, since every binding takes one variable out of the free ones.
-/

namespace HornPlan

/-- An assignment makes the two terms of every pair equal. -/
def Unifies (h : Variable → Term) (pairs : List (Term × Term)) : Prop :=
  ∀ p ∈ pairs, p.1.bind h = p.2.bind h

@[simp] theorem unifies_nil (h : Variable → Term) : Unifies h [] :=
  fun _ hp => absurd hp List.not_mem_nil

@[simp] theorem unifies_cons {h : Variable → Term} {p : Term × Term} {pairs : List (Term × Term)} :
    Unifies h (p :: pairs) ↔ p.1.bind h = p.2.bind h ∧ Unifies h pairs :=
  List.forall_mem_cons

@[simp] theorem unifies_append {h : Variable → Term} {pairs others : List (Term × Term)} :
    Unifies h (pairs ++ others) ↔ Unifies h pairs ∧ Unifies h others :=
  List.forall_mem_append

theorem unifies_zip {h : Variable → Term} {ts us : List Term} (hlength : ts.length = us.length) :
    Unifies h (ts.zip us) ↔ ts.map (Term.bind h) = us.map (Term.bind h) := by
  induction ts generalizing us with
  | nil =>
      obtain rfl := List.length_eq_zero_iff.mp hlength.symm
      simp
  | cons t ts ih =>
      cases us with
      | nil => cases hlength
      | cons u us => simp [ih (Nat.succ.inj hlength)]

/-! ## Differences -/

namespace Difference

/-- The place of a difference and the pairs to the right of it. -/
def pairs (d : Difference) : List (Term × Term) :=
  (d.left, d.right) :: d.rest

/-- A difference between two lists of terms of the same length. -/
structure Between (d : Difference) (ts us : List Term) : Prop where
  apart : d.left ≠ d.right
  /-- Where no side is a variable, no assignment removes the difference. -/
  clash : (∃ x, d.left = .var x) ∨ (∃ y, d.right = .var y) ∨
    ∀ h, d.left.bind h ≠ d.right.bind h
  parts : ∀ p ∈ d.pairs, p.1 ∈ Term.subtermsList ts ∧ p.2 ∈ Term.subtermsList us
  unifies : ∀ h, ts.map (Term.bind h) = us.map (Term.bind h) ↔ Unifies h d.pairs

theorem between_of_apart {t u : Term} (hne : t ≠ u)
    (hclash : (∃ x, t = .var x) ∨ (∃ y, u = .var y) ∨ ∀ h, t.bind h ≠ u.bind h) :
    Between ⟨t, u, []⟩ [t] [u] where
  apart := hne
  clash := hclash
  parts p hp := by
    obtain rfl := List.mem_singleton.mp hp
    simp [Term.subtermsList, Term.mem_subterms_self]
  unifies h := by simp [pairs]

/-- A difference between the first terms of two lists, followed by the pairs of the others. -/
theorem Between.cons {d : Difference} {t u : Term} (hd : d.Between [t] [u]) {ts us : List Term}
    (hlength : ts.length = us.length) :
    Between { d with rest := d.rest ++ ts.zip us } (t :: ts) (u :: us) where
  apart := hd.apart
  clash := hd.clash
  parts p hp := by
    rw [pairs, ← List.cons_append, List.mem_append] at hp
    simp only [Term.subtermsList_eq_flatMap, List.flatMap_cons, List.mem_append]
    rcases hp with hp | hp
    · have := hd.parts p hp
      simp only [Term.subtermsList, List.append_nil] at this
      exact ⟨Or.inl this.1, Or.inl this.2⟩
    · obtain ⟨hleft, hright⟩ := List.of_mem_zip hp
      exact ⟨Or.inr (List.mem_flatMap.mpr ⟨_, hleft, Term.mem_subterms_self _⟩),
        Or.inr (List.mem_flatMap.mpr ⟨_, hright, Term.mem_subterms_self _⟩)⟩
  unifies h := by
    have hhead : t.bind h = u.bind h ↔ Unifies h d.pairs := by simpa using hd.unifies h
    rw [List.map_cons, List.map_cons, List.cons.injEq, hhead, ← unifies_zip hlength,
      ← unifies_append]
    rfl

theorem Between.tail {d : Difference} {ts us : List Term} (hd : d.Between ts us) (t : Term) :
    d.Between (t :: ts) (t :: us) where
  apart := hd.apart
  clash := hd.clash
  parts p hp := by
    obtain ⟨hleft, hright⟩ := hd.parts p hp
    exact ⟨List.mem_append_right _ hleft, List.mem_append_right _ hright⟩
  unifies h := by simpa using hd.unifies h

theorem Between.app {d : Difference} {ts us : List Term} (hd : d.Between ts us) (f : Symbol) :
    d.Between [.app f ts] [.app f us] where
  apart := hd.apart
  clash := hd.clash
  parts p hp := by
    obtain ⟨hleft, hright⟩ := hd.parts p hp
    simp only [Term.subtermsList, Term.subterms, List.append_nil]
    exact ⟨List.mem_cons_of_mem _ hleft, List.mem_cons_of_mem _ hright⟩
  unifies h := by simpa using hd.unifies h

end Difference

namespace Term

theorem bind_app_ne {f g : Symbol} {ts us : List Term} (hclash : ¬(f = g ∧ ts.length = us.length))
    (h : Variable → Term) : (app f ts).bind h ≠ (app g us).bind h := by
  intro heq
  rw [bind_app, bind_app, app.injEq] at heq
  exact hclash ⟨heq.1, by simpa using congrArg List.length heq.2⟩

theorem differenceList?_spec {ts us : List Term} (hlength : ts.length = us.length)
    (ih : ∀ t ∈ ts, ∀ u ∈ us, match t.difference? u with
      | none => t = u
      | some d => d.Between [t] [u]) :
    match differenceList? ts us with
    | none => ts = us
    | some d => d.Between ts us := by
  -- induction on the arguments, which are compared from left to right
  induction ts generalizing us with
  | nil =>
      obtain rfl := List.length_eq_zero_iff.mp hlength.symm
      rfl
  | cons t ts ihts =>
      cases us with
      | nil => cases hlength
      | cons u us =>
          have hhead := ih t (List.mem_cons_self ..) u (List.mem_cons_self ..)
          rw [differenceList?]
          cases hd : t.difference? u with
          | some d =>
              rw [hd] at hhead
              exact hhead.cons (Nat.succ.inj hlength)
          | none =>
              rw [hd] at hhead
              subst hhead
              have htail := ihts (Nat.succ.inj hlength) fun s hs v hv =>
                ih s (List.mem_cons_of_mem _ hs) v (List.mem_cons_of_mem _ hv)
              simp only
              cases hrest : differenceList? ts us with
              | some d =>
                  rw [hrest] at htail
                  exact htail.tail t
              | none =>
                  rw [hrest] at htail
                  exact congrArg (t :: ·) htail

/-- Where the symbols and the lengths agree, the difference of two compound terms is that of their
arguments, and elsewhere it is the terms themselves. -/
theorem difference?_app_spec {f g : Symbol} {ts us : List Term} (hf : f.isText)
    (ih : ∀ t ∈ ts, ∀ u ∈ us, match t.difference? u with
      | none => t = u
      | some d => d.Between [t] [u]) :
    match (app f ts).difference? (app g us) with
    | none => app f ts = app g us
    | some d => d.Between [app f ts] [app g us] := by
  by_cases hsame : f == g ∧ ts.length = us.length
  · have hlist := differenceList?_spec hsame.2 ih
    obtain rfl := (Symbol.beq_iff_eq_of_isText (Or.inl hf)).mp hsame.1
    have hdefined : f.isUndefined = false := by
      cases f with
      | text => rfl
      | value => cases hf
    rw [difference?, if_pos hsame, hdefined]
    cases hd : differenceList? ts us with
    | some d =>
        rw [hd] at hlist
        exact hlist.app f
    | none =>
        rw [hd] at hlist
        exact congrArg (app f) hlist
  · have hclash : ¬(f = g ∧ ts.length = us.length) :=
      fun h => hsame ⟨(Symbol.beq_iff_eq_of_isText (Or.inl hf)).mpr h.1, h.2⟩
    have hne : app f ts ≠ app g us := by
      intro heq
      cases heq
      exact hclash ⟨rfl, rfl⟩
    rw [difference?, if_neg hsame]
    exact Difference.between_of_apart hne (Or.inr (Or.inr (bind_app_ne hclash)))

/-- **Proper terms are equal, or differ where the leftmost difference says.** -/
theorem difference?_spec {t u : Term} (ht : t.isProper) (hu : u.isProper) :
    match t.difference? u with
    | none => t = u
    | some d => d.Between [t] [u] := by
  -- two terms differ here if their kinds, symbols or numbers of arguments do, and else in their
  -- arguments
  induction t using Term.inductionOnArgs generalizing u with
  | var x =>
      cases u with
      | var y =>
          rw [difference?]
          split_ifs with hxy
          · exact congrArg Term.var hxy
          · exact Difference.between_of_apart (by simpa using hxy) (Or.inl ⟨x, rfl⟩)
      | _ => exact Difference.between_of_apart Term.noConfusion (Or.inl ⟨x, rfl⟩)
  | const c =>
      cases u with
      | const d =>
          rw [difference?]
          split_ifs with hcd
          · exact congrArg Term.const hcd
          · exact Difference.between_of_apart (by simpa using hcd)
              (Or.inr (Or.inr fun h => by simpa using hcd))
      | var y => exact Difference.between_of_apart Term.noConfusion (Or.inr (Or.inl ⟨y, rfl⟩))
      | app g us =>
          exact Difference.between_of_apart Term.noConfusion (Or.inr (Or.inr fun h => by simp))
      | foreign f => cases hu
  | app f ts ih =>
      obtain ⟨hf, hts⟩ := isProper_app.mp ht
      cases u with
      | app g us =>
          obtain ⟨-, hus⟩ := isProper_app.mp hu
          exact difference?_app_spec hf fun t ht u hu => ih t ht (hts t ht) (hus u hu)
      | var y => exact Difference.between_of_apart Term.noConfusion (Or.inr (Or.inl ⟨y, rfl⟩))
      | const d =>
          exact Difference.between_of_apart Term.noConfusion (Or.inr (Or.inr fun h => by simp))
      | foreign f => cases hu
  | foreign f => cases ht

end Term

/-! ## Bindings -/

namespace Difference

variable {d : Difference} {ts us : List Term}

theorem binding?_eq_some {x : Variable} {s : Term} (h : d.binding? = some (x, s)) :
    x ∉ s.vars ∧ ((d.left = .var x ∧ d.right = s) ∨ (d.left = s ∧ d.right = .var x)) := by
  unfold binding? at h
  split at h
  · rename_i y hleft
    split_ifs at h with hoccurs
    cases h
    exact ⟨by simpa using hoccurs, Or.inl ⟨hleft, rfl⟩⟩
  · rename_i y hright _
    split_ifs at h with hoccurs
    cases h
    exact ⟨by simpa using hoccurs, Or.inr ⟨rfl, hright⟩⟩
  · cases h

theorem bind_eq_iff_of_binding? {x : Variable} {s : Term} (h : d.binding? = some (x, s))
    (f : Variable → Term) : d.left.bind f = d.right.bind f ↔ f x = s.bind f := by
  rcases (binding?_eq_some h).2 with ⟨hleft, hright⟩ | ⟨hleft, hright⟩
  · rw [hleft, hright, Term.bind_var]
  · rw [hleft, hright, Term.bind_var, eq_comm]

theorem bind_ne_of_mem_vars {x : Variable} {s : Term} (hne : s ≠ .var x) (hx : x ∈ s.vars)
    (h : Variable → Term) : h x ≠ s.bind h := by
  cases s with
  | var y =>
      obtain rfl := List.mem_singleton.mp hx
      exact absurd rfl hne
  | app f args => exact Term.ne_bind_of_mem_vars hx
  | _ => exact absurd hx List.not_mem_nil

theorem Between.binding?_eq_none (hd : d.Between ts us) (h : d.binding? = none)
    (f : Variable → Term) : d.left.bind f ≠ d.right.bind f := by
  unfold binding? at h
  split at h
  · rename_i y hleft
    split_ifs at h with hoccurs
    rw [hleft]
    exact bind_ne_of_mem_vars (hleft ▸ hd.apart.symm) (by simpa using hoccurs) f
  · rename_i y hright _
    split_ifs at h with hoccurs
    rw [hright]
    exact (bind_ne_of_mem_vars (hright ▸ hd.apart) (by simpa using hoccurs) f).symm
  · rename_i hleft hright
    rcases hd.clash with ⟨x, hx⟩ | ⟨y, hy⟩ | hclash
    · exact absurd hx (hleft x)
    · exact absurd hy (hright y)
    · exact hclash f

end Difference

/-! ## The leftmost difference of pairs -/

/-- Both terms of every pair are proper. -/
def ProperPairs (pairs : List (Term × Term)) : Prop :=
  ∀ p ∈ pairs, p.1.isProper ∧ p.2.isProper

namespace Substitution

theorem difference?_eq_none {σ : Substitution} {pairs : List (Term × Term)}
    (h : σ.difference? pairs = none) :
    ∀ p ∈ pairs, Term.difference? (σ.apply p.1) (σ.apply p.2) = none := by
  induction pairs with
  | nil => exact fun p hp => absurd hp List.not_mem_nil
  | cons q pairs ih =>
      rw [difference?] at h
      split at h
      · cases h
      · rename_i hq
        exact List.forall_mem_cons.mpr ⟨hq, ih h⟩

theorem difference?_eq_some {σ : Substitution} {pairs : List (Term × Term)} {d : Difference}
    (h : σ.difference? pairs = some d) :
    ∃ before p after d₀, pairs = before ++ p :: after ∧
      (∀ q ∈ before, Term.difference? (σ.apply q.1) (σ.apply q.2) = none) ∧
      Term.difference? (σ.apply p.1) (σ.apply p.2) = some d₀ ∧
      d = { d₀ with rest := d₀.rest ++ after } := by
  induction pairs with
  | nil => cases h
  | cons q pairs ih =>
      rw [difference?] at h
      split at h
      · rename_i d₀ hq
        exact ⟨[], q, pairs, d₀, rfl, fun _ hp => absurd hp List.not_mem_nil, hq,
          (Option.some.inj h).symm⟩
      · rename_i hq
        obtain ⟨before, p, after, d₀, rfl, hbefore, hp, rfl⟩ := ih h
        exact ⟨q :: before, p, after, d₀, rfl, List.forall_mem_cons.mpr ⟨hq, hbefore⟩, hp, rfl⟩

variable {σ : Substitution} {pairs : List (Term × Term)}

/-- Where applying a substitution leaves no difference, all its solutions make the pairs equal. -/
theorem unifies_of_difference?_eq_none (hproper : σ.IsProper) (hpairs : ProperPairs pairs)
    (h : ∀ p ∈ pairs, Term.difference? (σ.apply p.1) (σ.apply p.2) = none)
    {f : Variable → Term} (hsolved : σ.SolvedBy f) : Unifies f pairs := by
  intro p hp
  have hspec := Term.difference?_spec (isProper_apply hproper (hpairs p hp).1)
    (isProper_apply hproper (hpairs p hp).2)
  rw [h p hp] at hspec
  calc p.1.bind f = (σ.apply p.1).bind f := (bind_apply hsolved p.1).symm
    _ = (σ.apply p.2).bind f := congrArg (Term.bind f) hspec
    _ = p.2.bind f := bind_apply hsolved p.2

theorem mem_occurrences {x : Variable} : x ∈ σ.occurrences pairs ↔
    (∃ p ∈ pairs, x ∈ p.1.vars ∨ x ∈ p.2.vars) ∨ ∃ binding ∈ σ.bindings, x ∈ binding.2.vars := by
  simp [occurrences]

/-- The variables that may still be bound. -/
def freeVariables (σ : Substitution) (pairs : List (Term × Term)) : Finset Variable :=
  {x ∈ (σ.occurrences pairs).toFinset | x.name ∉ σ.names}

theorem mem_freeVariables {x : Variable} :
    x ∈ σ.freeVariables pairs ↔ x ∈ σ.occurrences pairs ∧ x.name ∉ σ.names := by
  simp [freeVariables]

/-- What is known of the binding that the leftmost difference of some pairs forces, and of the pairs
that are left then. -/
structure Forces (σ : Substitution) (pairs : List (Term × Term)) (x : Variable) (s : Term)
    (rest : List (Term × Term)) : Prop where
  free : x ∈ σ.freeVariables pairs
  unbound_vars : ∀ y ∈ s.vars, y.name ∉ σ.names
  fresh : x ∉ s.vars
  proper : s.isProper
  properRest : ProperPairs rest
  fewer : (σ.insert x.name s).freeVariables rest ⊂ σ.freeVariables pairs
  unifies : ∀ h, σ.SolvedBy h → (Unifies h pairs ↔ h x = s.bind h ∧ Unifies h rest)

theorem Forces.unbound {x : Variable} {s : Term} {rest : List (Term × Term)}
    (h : σ.Forces pairs x s rest) : x.name ∉ σ.names :=
  (mem_freeVariables.mp h.free).2

/-- A term is made of text symbols and of variables that may still be bound. -/
def Available (σ : Substitution) (pairs : List (Term × Term)) (r : Term) : Prop :=
  r.isProper ∧ ∀ y ∈ r.vars, y ∈ σ.freeVariables pairs

theorem available_of_mem_subterms (hσ : σ.Triangular) (hproper : σ.IsProper) {t r : Term}
    (ht : t.isProper) (hocc : ∀ y ∈ t.vars, y ∈ σ.occurrences pairs)
    (hr : r ∈ (σ.apply t).subterms) : σ.Available pairs r := by
  refine ⟨Term.isProper_of_mem_subterms (isProper_apply hproper ht) hr, ?_⟩
  intro y hy
  have happlied := Term.vars_subset_of_mem_subterms hr hy
  refine mem_freeVariables.mpr ⟨?_, hσ.not_mem_names happlied⟩
  rcases mem_vars_apply happlied with hyt | hbinding
  · exact hocc y hyt
  · exact mem_occurrences.mpr (Or.inr hbinding)

/-- Binding a variable to an available term leaves fewer variables to be bound. -/
theorem freeVariables_insert_ssubset {rest : List (Term × Term)} {x : Variable} {s : Term}
    (hx : x ∈ σ.freeVariables pairs) (hs : ∀ y ∈ s.vars, y ∈ σ.freeVariables pairs)
    (hrest : ∀ p ∈ rest, ∀ y, y ∈ p.1.vars ∨ y ∈ p.2.vars → y ∈ σ.occurrences pairs) :
    (σ.insert x.name s).freeVariables rest ⊂ σ.freeVariables pairs := by
  have hunbound := (mem_freeVariables.mp hx).2
  rw [Finset.ssubset_iff_of_subset]
  · refine ⟨x, hx, fun hmem => (mem_freeVariables.mp hmem).2 ?_⟩
    simp [names_insert hunbound]
  · intro y hy
    obtain ⟨hocc, hbound⟩ := mem_freeVariables.mp hy
    rw [names_insert hunbound, List.mem_append] at hbound
    refine mem_freeVariables.mpr ⟨?_, fun h => hbound (Or.inl h)⟩
    rcases mem_occurrences.mp hocc with ⟨p, hp, hyp⟩ | ⟨binding, hbinding, hyb⟩
    · exact hrest p hp y hyp
    · rw [bindings_insert hunbound, List.mem_append, List.mem_singleton] at hbinding
      rcases hbinding with hbinding | rfl
      · exact mem_occurrences.mpr (Or.inr ⟨binding, hbinding, hyb⟩)
      · exact (mem_freeVariables.mp (hs y hyb)).1

/-- The pairs before the leftmost difference are equal under every solution, and the difference
itself lies in the first pair after them. -/
theorem exists_between (hproper : σ.IsProper) (hpairs : ProperPairs pairs) {d : Difference}
    (hd : σ.difference? pairs = some d) :
    ∃ before p after, ∃ d₀ : Difference,
      pairs = before ++ p :: after ∧ d = { d₀ with rest := d₀.rest ++ after } ∧
      (∀ h, σ.SolvedBy h → Unifies h before) ∧ d₀.Between [σ.apply p.1] [σ.apply p.2] := by
  obtain ⟨before, p, after, d₀, rfl, hbefore, hp, rfl⟩ := difference?_eq_some hd
  refine ⟨before, p, after, d₀, rfl, rfl, ?_, ?_⟩
  · intro h hsolved
    have hproperBefore : ProperPairs before := fun q hq => hpairs q (List.mem_append_left _ hq)
    exact unifies_of_difference?_eq_none hproper hproperBefore hbefore hsolved
  · obtain ⟨hleft, hright⟩ := hpairs p (by simp)
    have hspec :=
      Term.difference?_spec (isProper_apply hproper hleft) (isProper_apply hproper hright)
    rwa [hp] at hspec

theorem bind_eq_iff_of_between {p : Term × Term} {d : Difference}
    (hd : d.Between [σ.apply p.1] [σ.apply p.2]) {h : Variable → Term} (hsolved : σ.SolvedBy h) :
    p.1.bind h = p.2.bind h ↔ Unifies h d.pairs := by
  rw [← bind_apply hsolved p.1, ← bind_apply hsolved p.2]
  simpa using hd.unifies h

/-- Both sides of every pair of a difference are available. -/
theorem available_of_between (hσ : σ.Triangular) (hproper : σ.IsProper) (hpairs : ProperPairs pairs)
    {p : Term × Term} (hp : p ∈ pairs) {d : Difference}
    (hd : d.Between [σ.apply p.1] [σ.apply p.2]) {q : Term × Term} (hq : q ∈ d.pairs) :
    σ.Available pairs q.1 ∧ σ.Available pairs q.2 := by
  obtain ⟨hleft, hright⟩ := hd.parts q hq
  simp only [Term.subtermsList, List.append_nil] at hleft hright
  constructor
  · refine available_of_mem_subterms hσ hproper (hpairs p hp).1 ?_ hleft
    intro y hy
    exact mem_occurrences.mpr (Or.inl ⟨p, hp, Or.inl hy⟩)
  · refine available_of_mem_subterms hσ hproper (hpairs p hp).2 ?_ hright
    intro y hy
    exact mem_occurrences.mpr (Or.inl ⟨p, hp, Or.inr hy⟩)

theorem forces_of_difference? (hσ : σ.Triangular) (hproper : σ.IsProper)
    (hpairs : ProperPairs pairs) {d : Difference} (hd : σ.difference? pairs = some d)
    {x : Variable} {s : Term} (hbinding : d.binding? = some (x, s)) :
    σ.Forces pairs x s d.rest := by
  obtain ⟨before, p, after, d₀, rfl, rfl, hbefore, hbetween⟩ := exists_between hproper hpairs hd
  have hmem : p ∈ before ++ p :: after := by simp
  have havailable := fun q (hq : q ∈ d₀.pairs) =>
    available_of_between hσ hproper hpairs hmem hbetween hq
  obtain ⟨hleft, hright⟩ := havailable (d₀.left, d₀.right) (List.mem_cons_self ..)
  obtain ⟨hfresh, hsides⟩ := Difference.binding?_eq_some hbinding
  obtain ⟨hx, hs⟩ : σ.Available (before ++ p :: after) (.var x) ∧
      σ.Available (before ++ p :: after) s := by
    rcases hsides with ⟨h1, h2⟩ | ⟨h1, h2⟩
    · exact ⟨h1 ▸ hleft, h2 ▸ hright⟩
    · exact ⟨h2 ▸ hright, h1 ▸ hleft⟩
  have hxfree := hx.2 x (List.mem_singleton_self x)
  refine ⟨hxfree, fun y hy => (mem_freeVariables.mp (hs.2 y hy)).2, hfresh, hs.1, ?_,
    freeVariables_insert_ssubset hxfree hs.2 ?_, ?_⟩
  · intro q hq
    rcases List.mem_append.mp hq with hq | hq
    · obtain ⟨h1, h2⟩ := havailable q (List.mem_cons_of_mem _ hq)
      exact ⟨h1.1, h2.1⟩
    · exact hpairs q (by simp [hq])
  · -- what is left of the pairs has no variables but those that were free before
    intro q hq y hy
    rcases List.mem_append.mp hq with hq | hq
    · obtain ⟨h1, h2⟩ := havailable q (List.mem_cons_of_mem _ hq)
      exact (mem_freeVariables.mp (hy.elim (h1.2 y) (h2.2 y))).1
    · exact mem_occurrences.mpr (Or.inl ⟨q, by simp [hq], hy⟩)
  · intro h hsolved
    have hplace := Difference.bind_eq_iff_of_binding? hbinding h
    rw [unifies_append, unifies_cons, bind_eq_iff_of_between hbetween hsolved, Difference.pairs,
      unifies_cons, hplace, unifies_append]
    simp only [hbefore h hsolved, true_and, and_assoc]

/-! ## Solving pairs -/

/-- What an extension of a substitution has to be in order to be its most general extension that
makes some pairs equal. -/
structure MostGeneral (σ : Substitution) (pairs : List (Term × Term))
    (θ : Substitution) : Prop where
  triangular : θ.Triangular
  proper : θ.IsProper
  extends_bindings : σ.bindings <+: θ.bindings
  names : ∀ name ∈ θ.names, name ∈ σ.names ∨ ∃ y ∈ σ.freeVariables pairs, y.name = name
  solvedBy : ∀ h, θ.SolvedBy h ↔ σ.SolvedBy h ∧ Unifies h pairs

theorem MostGeneral.of_forces {θ : Substitution} {x : Variable} {s : Term}
    {rest : List (Term × Term)} (hforces : σ.Forces pairs x s rest)
    (hθ : (σ.insert x.name s).MostGeneral rest θ) : σ.MostGeneral pairs θ where
  triangular := hθ.triangular
  proper := hθ.proper
  extends_bindings := by
    refine List.IsPrefix.trans ?_ hθ.extends_bindings
    rw [bindings_insert hforces.unbound]
    exact List.prefix_append ..
  names name hname := by
    rcases hθ.names name hname with hname | ⟨y, hy, hyname⟩
    · rw [names_insert hforces.unbound, List.mem_append, List.mem_singleton] at hname
      exact hname.imp_right fun hx => ⟨x, hforces.free, hx.symm⟩
    · exact Or.inr ⟨y, hforces.fewer.1 hy, hyname⟩
  solvedBy h := by
    rw [hθ.solvedBy, solvedBy_insert hforces.unbound, and_assoc]
    exact and_congr_right fun hsolved => (hforces.unifies h hsolved).symm

/-- A difference that no binding removes leaves no solution. -/
theorem not_unifies_of_binding?_eq_none (hproper : σ.IsProper) (hpairs : ProperPairs pairs)
    {d : Difference} (hd : σ.difference? pairs = some d) (hbinding : d.binding? = none)
    {h : Variable → Term} (hsolved : σ.SolvedBy h) : ¬Unifies h pairs := by
  obtain ⟨before, p, after, d₀, rfl, rfl, -, hbetween⟩ := exists_between hproper hpairs hd
  intro hunifies
  have hp := (bind_eq_iff_of_between hbetween hsolved).mp (hunifies p (by simp))
  exact hbetween.binding?_eq_none hbinding h (unifies_cons.mp hp).1

/-- **Solving pairs finds their most general solution, if there is one.** -/
theorem solve_spec {budget : Nat} (hσ : σ.Triangular) (hproper : σ.IsProper)
    (hpairs : ProperPairs pairs) (hbudget : (σ.freeVariables pairs).card ≤ budget) :
    match solve budget σ pairs with
    | none => ∀ h, σ.SolvedBy h → ¬Unifies h pairs
    | some θ => σ.MostGeneral pairs θ := by
  fun_induction solve budget σ pairs with
  | case1 budget σ pairs hd =>
      refine ⟨hσ, hproper, List.prefix_refl _, fun _ => Or.inl, fun h =>
        ⟨fun hsolved => ⟨hsolved, ?_⟩, And.left⟩⟩
      exact unifies_of_difference?_eq_none hproper hpairs (difference?_eq_none hd) hsolved
  | case2 σ pairs d hd x s budget hb ih =>
      have hforces := forces_of_difference? hσ hproper hpairs hd hb
      have hfewer := Finset.card_lt_card hforces.fewer
      have hspec := ih (hσ.insert hforces.unbound hforces.fresh hforces.unbound_vars)
        (hproper.insert hforces.unbound hforces.proper) hforces.properRest (by omega)
      split at hspec
      · intro h hsolved hunifies
        obtain ⟨hx, hrest⟩ := (hforces.unifies h hsolved).mp hunifies
        exact hspec h ((solvedBy_insert hforces.unbound).mpr ⟨hsolved, hx⟩) hrest
      · exact hspec.of_forces hforces
  | case3 budget σ pairs d hd hstuck =>
      intro h hsolved
      cases hb : d.binding? with
      | none => exact not_unifies_of_binding?_eq_none hproper hpairs hd hb hsolved
      | some binding =>
          -- a binding to be made is that of a free variable, so the budget is not spent
          have hfewer := Finset.card_lt_card (forces_of_difference? hσ hproper hpairs hd hb).fewer
          cases budget with
          | zero => omega
          | succ budget => exact absurd rfl (hstuck _ _ budget hb)

theorem card_freeVariables_le (σ : Substitution) (pairs : List (Term × Term)) :
    (σ.freeVariables pairs).card ≤ (σ.occurrences pairs).length := by
  unfold freeVariables
  calc _ ≤ (σ.occurrences pairs).toFinset.card := Finset.card_filter_le _ _
    _ ≤ (σ.occurrences pairs).length := List.toFinset_card_le _

theorem mostGeneral_of_unifyPairs? (hσ : σ.Triangular) (hproper : σ.IsProper)
    (hpairs : ProperPairs pairs) {θ : Substitution} (h : σ.unifyPairs? pairs = some θ) :
    σ.MostGeneral pairs θ := by
  have hspec := solve_spec hσ hproper hpairs (card_freeVariables_le σ pairs)
  rw [unifyPairs?] at h
  rwa [h] at hspec

theorem not_unifies_of_unifyPairs? (hσ : σ.Triangular) (hproper : σ.IsProper)
    (hpairs : ProperPairs pairs) (h : σ.unifyPairs? pairs = none) {f : Variable → Term}
    (hsolved : σ.SolvedBy f) : ¬Unifies f pairs := by
  have hspec := solve_spec hσ hproper hpairs (card_freeVariables_le σ pairs)
  rw [unifyPairs?] at h
  rw [h] at hspec
  exact hspec f hsolved

theorem unifies_atoms {h : Variable → Term} {a b : Atom} :
    Unifies h [(a.toTerm, b.toTerm)] ↔ a.bind h = b.bind h := by
  rw [unifies_cons, ← Atom.toTerm_bind, ← Atom.toTerm_bind, Atom.toTerm_injective.eq_iff]
  simp

end Substitution

end HornPlan
