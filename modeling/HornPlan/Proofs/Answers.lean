import HornPlan.Proofs.KnowledgeBases

/-!
# The answers to a query

A substitution answers a conjunction when it binds the variables of the goals and no others, its
values are ground, and applying it turns every goal into an entailed fact (`Answers`).  Nothing is
said of the order in which it binds the variables.  A substitution is a mapping, and two of them are
one answer when they bind the same names to the same terms (`SameMapping`).

`askAll` lists every answer once and nothing else (`Reached.askAll_lists_answers`).  It matches the
goals one after the other, cuts each match down to the variables of the goals and merges the equal
ones.  Before all that it looks for a goal whose predicate no clause concludes, and then it lists
nothing; in that case there is no answer to be listed.
-/

namespace HornPlan

namespace Substitution

variable {σ τ : Substitution}

/-- The same names are bound to the same terms, in whatever order. -/
def SameMapping (σ τ : Substitution) : Prop :=
  ∀ name, σ.lookup name = τ.lookup name

theorem mem_names_iff_exists_lookup {name : String} :
    name ∈ σ.names ↔ ∃ t, σ.lookup name = some t := by
  simp only [mem_names, lookup_eq_some_iff]

/-- The bindings can be read off the names and what they are bound to. -/
theorem filterMap_names (σ : Substitution) :
    σ.names.filterMap (fun name => (σ.lookup name).map fun t => (name, t)) = σ.bindings := by
  have hbinding : ∀ binding ∈ σ.bindings,
      ((fun name => (σ.lookup name).map fun t => (name, t)) ∘ Prod.fst) binding = some binding := by
    intro binding hmem
    have hlookup : σ.lookup binding.1 = some binding.2 := lookup_eq_some_iff.mpr hmem
    simp [hlookup]
  rw [names, List.filterMap_map, List.filterMap_congr hbinding, List.filterMap_some]

/-- Mappings that bind their names in the same order are the same substitution. -/
theorem SameMapping.eq_of_names_eq (h : σ.SameMapping τ) (hnames : σ.names = τ.names) : σ = τ := by
  refine eq_of_bindings_eq ?_
  rw [← filterMap_names σ, ← filterMap_names τ, hnames, funext h]

theorem lookup_eq_value {x : Variable} (hx : x.name ∈ σ.names) :
    σ.lookup x.name = some (σ.value x) := by
  obtain ⟨t, ht⟩ := mem_names_iff_exists_lookup.mp hx
  rw [value, ht, Option.getD_some]

/-- A ground term that is bound to a variable is what applying the substitution makes of the
variable. -/
theorem apply_var_of_vars_eq_nil {x : Variable} {t : Term} (hx : σ.lookup x.name = some t)
    (ht : t.vars = []) : σ.apply (.var x) = t := by
  have hpos : 0 < σ.bindings.length := List.length_pos_of_mem (lookup_eq_some_iff.mp hx)
  obtain ⟨depth, hdepth⟩ := Nat.exists_eq_succ_of_ne_zero (Nat.ne_of_gt hpos)
  have hresolve : σ.resolve depth t = t := by
    rw [resolve_eq_bind]
    refine Term.bind_eq_self ?_
    simp [ht]
  rw [apply, hdepth, Nat.succ_eq_add_one, resolve, Term.bind_var]
  simp only [hx, hresolve]

theorem applyAtom_eq_bind (σ : Substitution) (a : Atom) :
    σ.applyAtom a = a.bind fun x => σ.apply (.var x) := by
  rw [applyAtom, Atom.bind]
  congr 1
  refine List.map_congr_left ?_
  intro t _
  exact resolve_eq_bind σ σ.bindings.length t

instance : EquivBEq Substitution where
  rfl := beq_iff_code_eq.mpr rfl
  symm h := beq_iff_code_eq.mpr (beq_iff_code_eq.mp h).symm
  trans h h' := beq_iff_code_eq.mpr ((beq_iff_code_eq.mp h).trans (beq_iff_code_eq.mp h'))

end Substitution

/-! ## Answers as mappings -/

/-- A substitution binds the variables of the goals and no others, its values are ground, and
applying it turns every goal into one of the facts. -/
structure Answers (facts goals : List Atom) (a : Substitution) : Prop where
  domain : ∀ name, name ∈ a.names ↔ ∃ g ∈ goals, ∃ x ∈ g.vars, x.name = name
  ground : ∀ binding ∈ a.bindings, binding.2.isGround
  mem_facts : ∀ g ∈ goals, a.applyAtom g ∈ facts

variable {facts goals : List Atom} {a b : Substitution}

theorem IsAnswer.answers (h : IsAnswer facts goals a) : Answers facts goals a where
  domain name := by
    rw [h.names_eq, List.mem_map]
    constructor
    · rintro ⟨x, hx, rfl⟩
      obtain ⟨g, hg, hxg⟩ := mem_queryVariables.mp hx
      exact ⟨g, hg, x, hxg, rfl⟩
    · rintro ⟨g, hg, x, hxg, rfl⟩
      exact ⟨x, mem_queryVariables.mpr ⟨g, hg, hxg⟩, rfl⟩
  ground binding hbinding :=
    (Term.isGround_iff_closed (h.closed binding hbinding).1).mpr (h.closed binding hbinding)
  mem_facts g hg := by
    rw [h.closed.applyAtom_eq]
    exact h.mem_facts g hg

/-- The values of an answer are parts of facts, so they are proper terms. -/
theorem Answers.closed (h : Answers facts goals a) (hfacts : ∀ f ∈ facts, f.Closed) : a.Closed := by
  rintro ⟨name, t⟩ hbinding
  have hlookup : a.lookup name = some t := Substitution.lookup_eq_some_iff.mpr hbinding
  have hground := h.ground _ hbinding
  have hvars : t.vars = [] := by
    simp only [Term.isGround, Bool.and_eq_true, List.isEmpty_iff] at hground
    exact hground.1
  obtain ⟨g, hg, x, hx, rfl⟩ := (h.domain name).mp (Substitution.mem_names.mpr ⟨t, hbinding⟩)
  have hfact := hfacts _ (h.mem_facts g hg)
  rw [Substitution.applyAtom_eq_bind] at hfact
  rw [← Substitution.apply_var_of_vars_eq_nil hlookup hvars]
  exact (Atom.closed_bind.mp hfact).2 x hx

theorem Answers.bind_mem (h : Answers facts goals a) (hfacts : ∀ f ∈ facts, f.Closed) :
    ∀ g ∈ goals, g.bind a.value ∈ facts := by
  intro g hg
  rw [← (h.closed hfacts).applyAtom_eq]
  exact h.mem_facts g hg

theorem Answers.sameMapping (ha : Answers facts goals a) (hb : Answers facts goals b)
    (hvalue : ∀ g ∈ goals, ∀ x ∈ g.vars, a.value x = b.value x) : a.SameMapping b := by
  intro name
  by_cases hname : name ∈ a.names
  · have hnameb : name ∈ b.names := (hb.domain name).mpr ((ha.domain name).mp hname)
    obtain ⟨g, hg, x, hx, rfl⟩ := (ha.domain name).mp hname
    rw [Substitution.lookup_eq_value hname, Substitution.lookup_eq_value hnameb, hvalue g hg x hx]
  · have hnameb : name ∉ b.names := fun h => hname ((ha.domain name).mpr ((hb.domain name).mp h))
    rw [Substitution.lookup_eq_none_iff.mpr hname, Substitution.lookup_eq_none_iff.mpr hnameb]

/-- No two of the answers listed are the same mapping. -/
theorem pairwise_answers (hfacts : ∀ f ∈ facts, f.Closed) (hgoals : ∀ g ∈ goals, g.isProper) :
    (answers facts goals).Pairwise fun a b => ¬a.SameMapping b := by
  have hnodup : (answers facts goals).Nodup := by
    rw [answers_eq_eraseDups]
    exact nodup_eraseDups _
  refine hnodup.imp_of_mem ?_
  intro a b ha hb hne hsame
  have hnames : a.names = b.names :=
    calc a.names = (queryVariables goals).map (·.name) :=
          (isAnswer_of_mem_answers hfacts hgoals ha).names_eq
      _ = b.names := (isAnswer_of_mem_answers hfacts hgoals hb).names_eq.symm
  exact hne (hsame.eq_of_names_eq hnames)

namespace KnowledgeBase

variable {kb : KnowledgeBase}

/-- **`askAll` lists the answers to a conjunction over the entailed facts, each mapping once and
nothing else.**  When it stops early, because some goal has a predicate that no clause concludes, no
substitution is an answer. -/
theorem Reached.askAll_lists_answers (h : kb.Reached) (hgoals : ∀ g ∈ goals, g.isProper) :
    ∃ facts found next, kb.closure = .ok facts ∧ kb.askAll goals = .ok (found, next) ∧
      (found.Pairwise fun a b => ¬a.SameMapping b) ∧
      (∀ a ∈ found, Answers facts goals a) ∧
      (∀ a, Answers facts goals a → ∃ b ∈ found, b.SameMapping a) ∧
      (kb.couldMatch goals = .ok false → ∀ a, ¬Answers facts goals a) := by
  obtain ⟨facts, hfacts, hclosed, -⟩ := h.proper.exists_closure
  obtain ⟨next, hask⟩ := h.proper.askAll_eq_answers hfacts hgoals
  have hsound : ∀ a ∈ answers facts goals, Answers facts goals a := fun a ha =>
    (isAnswer_of_mem_answers hclosed hgoals ha).answers
  refine ⟨facts, answers facts goals, next, hfacts, hask, pairwise_answers hclosed hgoals,
    hsound, ?_, ?_⟩
  · intro a ha
    obtain ⟨b, hb, hvalue⟩ := exists_mem_answers hclosed hgoals (ha.bind_mem hclosed)
    exact ⟨b, hb, (hsound b hb).sameMapping ha hvalue⟩
  · intro hnone a ha
    have hpossible := h.proper.couldMatch_of_exists hfacts hgoals (ha.bind_mem hclosed)
    rw [hnone] at hpossible
    cases hpossible

/-- The roads lead from one town to a second and on to a third. -/
theorem askAll_lists_answers_of_roads : ∃ kb, ofClauses roads = .ok kb ∧ kb.Reached ∧
    (∀ g ∈ detour, g.isProper) ∧
    ∃ facts found next, kb.closure = .ok facts ∧ kb.askAll detour = .ok (found, next) ∧
      (found.Pairwise fun a b => ¬a.SameMapping b) ∧
      (∀ a ∈ found, Answers facts detour a) ∧
      (∀ a, Answers facts detour a → ∃ b ∈ found, b.SameMapping a) ∧
      (kb.couldMatch detour = .ok false → ∀ a, ¬Answers facts detour a) := by
  obtain ⟨kb, hkb⟩ : ∃ kb, ofClauses roads = .ok kb := ⟨_, rfl⟩
  have hreached : kb.Reached := Reached.empty.foldlM_tell (by decide) hkb
  have hgoals : ∀ g ∈ detour, g.isProper := by decide
  exact ⟨kb, hkb, hreached, hgoals, hreached.askAll_lists_answers hgoals⟩

end KnowledgeBase

end HornPlan
