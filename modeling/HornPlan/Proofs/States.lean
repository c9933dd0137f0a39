import HornPlan.Proofs.Terms
import HornPlan.State

/-!
# States are finite sets of facts

A state is *proper* when it holds closed facts and nothing else.  Adding and removing facts then are
union and difference, a listing has the facts of its state, and equal states are the same.
-/

namespace HornPlan

/-! ## Lists ordered by code -/

instance : Std.LawfulBEqCmp (compareOn Atom.code) where
  compare_eq_iff_beq {a b} := by
    rw [Atom.beq_iff_code_eq, compareOn, Std.LawfulEqCmp.compare_eq_iff_eq]

theorem mem_toList_insert {met : Std.TreeSet Atom (compareOn Atom.code)} {a : Atom}
    (ha : a.isProper) {b : Atom} : b ∈ (met.insert a).toList ↔ b = a ∨ b ∈ met.toList := by
  rw [Std.TreeSet.toList_insert_perm.mem_iff]
  split
  · rename_i hmem
    have hlisted : a ∈ met.toList := by
      rw [← Atom.contains_iff_mem ha, Std.TreeSet.contains_toList]
      exact hmem
    exact ⟨Or.inr, fun h => h.elim (fun heq => heq ▸ hlisted) id⟩
  · exact List.mem_cons

theorem mem_sortBy {facts : List Atom} (hfacts : ∀ f ∈ facts, f.isProper) {b : Atom} :
    b ∈ sortBy Atom.code facts ↔ b ∈ facts := by
  have hfold : ∀ met : Std.TreeSet Atom (compareOn Atom.code),
      b ∈ (facts.foldl (fun met item => met.insert item) met).toList ↔ b ∈ facts ∨
      b ∈ met.toList := by
    induction facts with
    | nil => simp
    | cons f facts ih =>
        intro met
        obtain ⟨hf, hrest⟩ := List.forall_mem_cons.mp hfacts
        rw [List.foldl_cons, ih hrest, mem_toList_insert hf, List.mem_cons]
        tauto
  rw [sortBy, hfold, or_iff_left_iff_imp]
  intro h
  exact absurd h List.not_mem_nil

theorem mem_mergeStep {a b : Atom} (ha : a.isProper) {rest : List Atom → List Atom}
    {added : List Atom} {items : List Atom}
    (hrest : ∀ items, b ∈ rest items ↔ b ∈ added ∨ b ∈ items) :
    b ∈ mergeStep Atom.code a rest items ↔ b ∈ a :: added ∨ b ∈ items := by
  induction items with
  | nil => simp [mergeStep, hrest]
  | cons c items ih =>
      unfold mergeStep
      split
      · simp [hrest, or_assoc]
      · split
        · rw [List.mem_cons, ih, List.mem_cons, List.mem_cons]
          tauto
        · -- neither code comes first, so the two facts are one
          have heq : a = c := (Atom.beq_iff_eq_of_isProper ha).mp
            (Atom.beq_iff_code_eq.mpr (List.le_antisymm ‹_› ‹_›))
          subst heq
          rw [List.mem_cons, hrest, List.mem_cons, List.mem_cons]
          tauto

theorem mem_mergeBy_iff {added items : List Atom} (hadded : ∀ f ∈ added, f.isProper) {b : Atom} :
    b ∈ mergeBy Atom.code added items ↔ b ∈ added ∨ b ∈ items := by
  induction added generalizing items with
  | nil => simp [mergeBy]
  | cons a added ih =>
      obtain ⟨ha, hrest⟩ := List.forall_mem_cons.mp hadded
      exact mem_mergeStep ha fun _ => ih hrest

/-! ## Listings -/

section

variable {α β : Type} {text : α → String} {items : List α}

theorem insertByText_map (text : α → String) (f : β → α) (b : β) (items : List β) :
    insertByText text (f b) (items.map f) = (insertByText (fun c => text (f c)) b items).map f := by
  induction items with
  | nil => rfl
  | cons c items ih =>
      rw [List.map_cons, insertByText, insertByText, ih]
      split <;> rfl

theorem sortedByText_eq_foldr (text : α → String) (items : List α) :
    sortedByText text items = items.foldr (insertByText text) [] := by
  have hpairs : (items.map fun item => (text item, item)).foldr (insertByText Prod.fst) []
      = (items.foldr (insertByText text) []).map fun item => (text item, item) := by
    induction items with
    | nil => rfl
    | cons a items ih =>
        rw [List.map_cons, List.foldr_cons, ih]
        exact insertByText_map Prod.fst (fun item => (text item, item)) a _
  rw [sortedByText, hpairs, List.map_map]
  exact List.map_id _

theorem sortedByText_map (text : α → String) (f : β → α) (items : List β) :
    sortedByText text (items.map f) = (sortedByText (fun b => text (f b)) items).map f := by
  rw [sortedByText_eq_foldr, sortedByText_eq_foldr]
  induction items with
  | nil => rfl
  | cons b items ih => rw [List.map_cons, List.foldr_cons, List.foldr_cons, ih, insertByText_map]

theorem perm_insertByText (text : α → String) (a : α) (items : List α) :
    (insertByText text a items).Perm (a :: items) := by
  induction items with
  | nil => exact .refl _
  | cons b items ih =>
      rw [insertByText]
      split
      · exact .refl _
      · exact (ih.cons b).trans (.swap a b items)

theorem perm_sortedByText (text : α → String) (items : List α) :
    (sortedByText text items).Perm items := by
  rw [sortedByText_eq_foldr]
  induction items with
  | nil => exact .refl _
  | cons a items ih => exact (perm_insertByText text a _).trans (ih.cons a)

theorem mem_sortedByText {a : α} : a ∈ sortedByText text items ↔ a ∈ items :=
  (perm_sortedByText text items).mem_iff

end

theorem Enumeration.mem_facts {e : Enumeration} {s : State} {f : Atom} :
    f ∈ e.facts s ↔ f ∈ s.facts :=
  (e.perm s).mem_iff

theorem Enumeration.mem_listing {e : Enumeration} {s : State} {f : Atom} :
    f ∈ e.listing s ↔ f ∈ s.facts :=
  mem_sortedByText.trans mem_facts

namespace State

/-! ## Proper states -/

/-- A state of closed facts and nothing else. -/
structure Proper (s : State) : Prop where
  closed : ∀ f ∈ s.facts, f.Closed
  others : s.others = []

variable {s t : State} {facts : List Atom}

theorem proper_empty : empty.Proper :=
  ⟨fun _ h => absurd h List.not_mem_nil, rfl⟩

theorem mem_insertAll (hfacts : ∀ f ∈ facts, f.isProper) {f : Atom} :
    f ∈ (s.insertAll facts).facts ↔ f ∈ facts ∨ f ∈ s.facts := by
  have hsorted : ∀ g ∈ sortBy Atom.code facts, g.isProper := fun g hg =>
    hfacts g ((mem_sortBy hfacts).mp hg)
  exact (mem_mergeBy_iff hsorted).trans (or_congr_left (mem_sortBy hfacts))

theorem Proper.insertAll (hs : s.Proper) (hfacts : ∀ f ∈ facts, f.Closed) :
    (s.insertAll facts).Proper := by
  refine ⟨?_, hs.others⟩
  intro f hf
  rcases (mem_insertAll fun g hg => (hfacts g hg).1).mp hf with hf | hf
  · exact hfacts f hf
  · exact hs.closed f hf

theorem mem_removeAll (hs : s.Proper) {f : Atom} :
    f ∈ (s.removeAll facts).facts ↔ f ∈ s.facts ∧ f ∉ facts := by
  refine List.mem_filter.trans (and_congr_right ?_)
  intro hf
  rw [Bool.not_eq_true', Bool.eq_false_iff, ne_eq, Atom.contains_iff_mem (hs.closed f hf).1]

theorem Proper.removeAll (hs : s.Proper) (facts : List Atom) : (s.removeAll facts).Proper :=
  ⟨fun f hf => hs.closed f ((mem_removeAll hs).mp hf).1, hs.others⟩

theorem proper_ofList (hfacts : ∀ f ∈ facts, f.Closed) : (ofList facts).Proper :=
  proper_empty.insertAll hfacts

theorem Proper.holdsFact_iff (hs : s.Proper) {f : Atom} : s.holdsFact f ↔ f ∈ s.facts := by
  rw [holdsFact, List.contains_eq_any_beq, List.any_eq_true]
  constructor
  · rintro ⟨g, hg, hfg⟩
    rw [BEq.comm] at hfg
    exact (Atom.beq_iff_eq_of_isProper (hs.closed g hg).1).mp hfg ▸ hg
  · intro hf
    exact ⟨f, hf, BEq.rfl⟩

/-- Of two equal states of which one is proper the other is the same. -/
theorem eq_of_beq (hst : s.Proper ∨ t.Proper) (h : s == t) : s = t := by
  obtain ⟨hleft, hothers⟩ := Bool.and_eq_true_iff.mp h
  refine eq_of_facts_eq
    (eq_of_list_beq ?_ (Bool.and_eq_true_iff.mp hleft).2)
    (eq_of_list_beq ?_ hothers)
  · intro f hf g hg hfg
    rcases hst with hs | ht
    · exact (Atom.beq_iff_eq_of_isProper (hs.closed f hf).1).mp hfg
    · exact ((Atom.beq_iff_eq_of_isProper (ht.closed g hg).1).mp (BEq.symm hfg)).symm
  · intro u hu v hv _
    rcases hst with hs | ht
    · rw [hs.others] at hu
      exact absurd hu List.not_mem_nil
    · rw [ht.others] at hv
      exact absurd hv List.not_mem_nil

instance : ReflBEq State :=
  ⟨Bool.and_eq_true_iff.mpr ⟨Bool.and_eq_true_iff.mpr ⟨BEq.rfl, BEq.rfl⟩, BEq.rfl⟩⟩

theorem Proper.isPrintable (hs : s.Proper) : s.isPrintable := by
  rw [State.isPrintable, hs.others, List.all_nil, Bool.and_true]
  exact List.all_eq_true.mpr fun f hf => Term.isPrintable_of_isProper (hs.closed f hf).1

theorem Proper.requireListing_eq (hs : s.Proper) : s.requireListing = .ok () := by
  simp [requireListing, hs.isPrintable, hs.others]

theorem Proper.factsByPredicate_eq (hs : s.Proper) (e : Enumeration) :
    e.factsByPredicate s = .ok (e.listing s) := by
  rw [Enumeration.factsByPredicate, hs.requireListing_eq]
  rfl

theorem Proper.entries?_eq (hs : s.Proper) (e : Enumeration) : e.entries? s = .ok (e.entries s) :=
  if_pos hs.isPrintable

theorem Proper.mem_entries (hs : s.Proper) {e : Enumeration} {t : Term} :
    t ∈ e.entries s ↔ ∃ f ∈ s.facts, f.toTerm = t := by
  rw [Enumeration.entries, mem_sortedByText, hs.others, List.nil_append, List.mem_map]
  exact exists_congr fun f => and_congr_left fun _ => Enumeration.mem_facts

end State

end HornPlan
