import HornPlan.Proofs.Failures
import HornPlan.Proofs.Texts

/-!
# When the order of the texts is the only one

Sorting by text keeps items of one text in the order in which they come.  So the outcome depends on
that order as soon as two different items have one text, and only then: a set has one listing
whichever way it is gone through exactly when texts tell its members apart
(`sortedByText_canonical_iff`).

Plain facts are told apart.  A problem is *plain* when everything that its clauses conclude and its
actions add is: then the facts of every state that planning comes to are plain
(`isPlain_of_explores`), since what stands for a variable there has been taken from a plain fact.
-/

namespace HornPlan

/-! ## Sorting by text -/

section

variable {α : Type} {text : α → String} {items others : List α}

theorem pairwise_insertByText (a : α) (h : items.Pairwise fun a b => text a ≤ text b) :
    (insertByText text a items).Pairwise fun a b => text a ≤ text b := by
  induction items with
  | nil => exact List.pairwise_singleton _ a
  | cons b items ih =>
      obtain ⟨hb, hitems⟩ := List.pairwise_cons.mp h
      rw [insertByText]
      split
      · rename_i hle
        refine List.pairwise_cons.mpr ⟨List.forall_mem_cons.mpr ⟨hle, fun c hc => ?_⟩, h⟩
        exact String.le_trans hle (hb c hc)
      · rename_i hlt
        refine List.pairwise_cons.mpr ⟨fun c hc => ?_, ih hitems⟩
        rcases List.mem_cons.mp ((perm_insertByText text a items).mem_iff.mp hc) with rfl | hc
        · exact (String.le_total _ _).resolve_right hlt
        · exact hb c hc

theorem pairwise_sortedByText (text : α → String) (items : List α) :
    (sortedByText text items).Pairwise fun a b => text a ≤ text b := by
  rw [sortedByText_eq_foldr]
  induction items with
  | nil => exact .nil
  | cons a items ih => exact pairwise_insertByText a ih

/-- An item is put before those with its text: the ones it is put after have smaller texts. -/
theorem filter_insertByText (a : α) (items : List α) (name : String) :
    (insertByText text a items).filter (fun b => text b == name)
      = (a :: items).filter fun b => text b == name := by
  induction items with
  | nil => rfl
  | cons b items ih =>
      rw [insertByText]
      split
      · rfl
      · rename_i hlt
        rw [List.filter_cons, ih, List.filter_cons, List.filter_cons, List.filter_cons]
        split
        · rename_i hb
          split
          · rename_i ha
            have htext : text a = text b := (eq_of_beq ha).trans (eq_of_beq hb).symm
            exact absurd (htext ▸ String.le_refl (text a)) hlt
          · rfl
        · rfl

/-- **Items of one text stay in the order in which they come.** -/
theorem filter_sortedByText (items : List α) (name : String) :
    (sortedByText text items).filter (fun a => text a == name) =
      items.filter fun a => text a == name := by
  rw [sortedByText_eq_foldr]
  induction items with
  | nil => rfl
  | cons a items ih =>
      rw [List.foldr_cons, filter_insertByText, List.filter_cons, ih, List.filter_cons]

theorem sortedByText_eq_of_perm (hperm : others.Perm items)
    (htold : ∀ a ∈ items, ∀ b ∈ items, text a = text b → a = b) :
    sortedByText text others = sortedByText text items := by
  have hsorted : (sortedByText text others).Perm (sortedByText text items) :=
    (perm_sortedByText text others).trans (hperm.trans (perm_sortedByText text items).symm)
  refine hsorted.eq_of_pairwise ?_ (pairwise_sortedByText text others)
    (pairwise_sortedByText text items)
  intro a b ha hb hab hba
  exact htold a (hperm.mem_iff.mp (mem_sortedByText.mp ha)) b (mem_sortedByText.mp hb)
    (String.le_antisymm hab hba)

/-- **A set has one listing exactly when its members are told apart by their texts.** -/
theorem sortedByText_canonical_iff :
    (∀ others : List α, others.Perm items → sortedByText text others = sortedByText text items) ↔
      ∀ a ∈ items, ∀ b ∈ items, text a = text b → a = b := by
  constructor
  · intro hcanonical a ha b hb htext
    by_contra hne
    classical
    have hb' : b ∈ items.erase a := (List.mem_erase_of_ne (Ne.symm hne)).mpr hb
    have hfirst : (a :: b :: (items.erase a).erase b).Perm items :=
      (((List.perm_cons_erase hb').symm.cons a).trans (List.perm_cons_erase ha).symm)
    have hsecond : (b :: a :: (items.erase a).erase b).Perm items :=
      (List.Perm.swap a b _).trans hfirst
    -- the two stand in both orders, and sorting keeps either
    have hsame := (hcanonical _ hfirst).trans (hcanonical _ hsecond).symm
    have hties := congrArg (List.filter fun c => text c == text a) hsame
    simp only [filter_sortedByText, List.filter_cons, htext, beq_self_eq_true, if_true] at hties
    exact hne (List.head_eq_of_cons_eq hties)
  · intro htold others hperm
    exact sortedByText_eq_of_perm hperm htold

end

/-! ## States of plain facts -/

namespace State

/-- All facts of a state are plain. -/
def IsPlain (s : State) : Prop :=
  ∀ f ∈ s.facts, f.isPlain

variable {s : State} {facts : List Atom}

theorem Proper.eq_of_text_eq (hs : s.Proper) (hplain : s.IsPlain) :
    ∀ f ∈ s.facts, ∀ g ∈ s.facts, f.text = g.text → f = g := fun f hf g hg =>
  Atom.eq_of_text_eq (hs.closed f hf) (hs.closed g hg) (hplain f hf) (hplain g hg)

theorem IsPlain.insertAll (hplain : s.IsPlain) (hclosed : ∀ f ∈ facts, f.Closed)
    (hfacts : ∀ f ∈ facts, f.isPlain) : (s.insertAll facts).IsPlain := by
  intro f hf
  rcases (mem_insertAll fun g hg => (hclosed g hg).1).mp hf with hf | hf
  · exact hfacts f hf
  · exact hplain f hf

theorem IsPlain.removeAll (hs : s.Proper) (hplain : s.IsPlain) (facts : List Atom) :
    (s.removeAll facts).IsPlain :=
  fun f hf => hplain f ((mem_removeAll hs).mp hf).1

end State

/-! ## Plain problems -/

/-- A safe rule with a plain consequent makes plain facts of plain facts. -/
theorem Clause.Safe.isPlain_consequent {c : Clause} (hsafe : c.Safe) (hplain : c.consequent.isPlain)
    {h : Variable → Term} (hbody : ∀ a ∈ c.antecedents, (a.bind h).isPlain) :
    (c.consequent.bind h).isPlain := by
  refine Atom.isPlain_bind hplain fun x hx => ?_
  obtain ⟨a, ha, hxa⟩ := Clause.mem_bodyVariables.mp (hsafe.mem_bodyVariables hx)
  exact Atom.isPlain_of_bind (hbody a ha) hxa

namespace Problem

/-- What the clauses of a problem conclude and what its actions add is plain. -/
def isPlain (p : Problem) : Bool :=
  p.kb.clauses.all (·.consequent.isPlain) && p.actions.all fun a => a.adds.all Atom.isPlain

variable {p : Problem}

theorem isPlain_iff : p.isPlain ↔ (∀ c ∈ p.kb.clauses, c.consequent.isPlain) ∧
    ∀ a ∈ p.actions, ∀ f ∈ a.adds, f.isPlain := by
  simp [isPlain]

theorem Proper.isPlain_of_mem_closure (hp : p.Proper) (hplain : p.isPlain) {entailed : List Atom}
    (hentailed : p.kb.closure = .ok entailed) : ∀ f ∈ entailed, f.isPlain := by
  have hclauses := (isPlain_iff.mp hplain).1
  have hclosed : ClosedUnder p.kb.rules {f | f.isPlain} := by
    intro r hr h _ hbody
    have hr := (KnowledgeBase.mem_rules.mp hr).1
    exact (p.kb.safe r hr).isPlain_consequent (hclauses r hr) hbody
  refine (hp.kb.isClosure hentailed).subset hclosed ?_
  intro f hf
  obtain ⟨c, hc, -, rfl⟩ := KnowledgeBase.mem_facts.mp hf
  exact hclauses c hc

theorem Proper.isPlain_initialState (hp : p.Proper) (hplain : p.isPlain) :
    p.initialState.IsPlain := by
  rw [p.initialState_eq]
  intro f hf
  have hclosed := hp.kb.base.closed
  have hf : f ∈ p.kb.facts :=
    ((State.mem_insertAll fun g hg => (hclosed g hg).1).mp hf).resolve_right List.not_mem_nil
  obtain ⟨c, hc, -, rfl⟩ := KnowledgeBase.mem_facts.mp hf
  exact (isPlain_iff.mp hplain).1 c hc

/-- In a state of plain facts ground actions add plain facts. -/
theorem GroundedAt.isPlain_adds {s : State} {a : Action} (h : p.GroundedAt s a) (hp : p.Proper)
    (hplain : p.isPlain) (hs : s.IsPlain) : ∀ f ∈ a.adds, f.isPlain := by
  obtain ⟨schema, hschema, entailed, σ, hentailed, hσ⟩ := h
  -- a variable has been matched with a part of a fact, or of one that is entailed
  have hvalues : ∀ x ∈ schema.vars, (σ.value x).isPlain := by
    intro x hx
    obtain ⟨b, hb, hxb⟩ := hσ.determined x hx
    refine Atom.isPlain_of_bind ?_ hxb
    rcases List.mem_append.mp hb with hb | hb
    · exact hs _ (Enumeration.mem_listing.mp (hσ.required b hb))
    · exact hp.isPlain_of_mem_closure hplain hentailed _ (hσ.entailed b hb)
  intro f hf
  rw [hσ.instance_of.adds] at hf
  obtain ⟨b, hb, rfl⟩ := List.mem_map.mp (mem_of_mem_eraseDups hf)
  have hatom : b ∈ schema.atoms := by simp [Schema.atoms, hb]
  exact Atom.isPlain_bind ((isPlain_iff.mp hplain).2 schema hschema b hb) fun x hx =>
    hvalues x (schema.mem_vars hatom hx)

/-- What planning looks at after a state of plain facts has plain facts. -/
theorem Explores.isPlain (hp : p.Proper) (hplain : p.isPlain) {s t : State} (h : p.Explores s t)
    (hs : s.Proper) (hsplain : s.IsPlain) : t.IsPlain := by
  cases h with
  | successor hl hmem =>
      have hat := hp.groundedAt_of_mem_successors hs hl hmem
      obtain ⟨-, -, -, -, -, -, rfl⟩ := exists_of_mem_successors hs hl hmem
      exact (hsplain.removeAll hs _).insertAll (hat.closed_adds hp)
        (hat.isPlain_adds hp hplain hsplain)
  | layer h =>
      obtain ⟨added, hadded, rfl⟩ := h
      refine hsplain.insertAll (fun f hf => RelaxedGraph.closed_of_mem_additions hp hs hadded hf) ?_
      intro f hf
      obtain ⟨-, schema, hschema, grounded, hgrounded, a, ha, hfa⟩ :=
        (RelaxedGraph.additions_spec hs hadded).1 f hf
      exact (hp.groundedAt hs hschema hgrounded ha).isPlain_adds hp hplain hsplain f hfa

/-- **Every state that planning comes to in a plain problem has plain facts.** -/
theorem isPlain_of_explores (hp : p.Proper) (hplain : p.isPlain) {s t : State}
    (h : Relation.ReflTransGen p.Explores s t) (hs : s.Proper) (hsplain : s.IsPlain) :
    t.IsPlain := by
  induction h with
  | refl => exact hsplain
  | tail hsteps hstep ih => exact hstep.isPlain hp hplain (proper_of_explores hp hsteps hs) ih

end Problem

end HornPlan
