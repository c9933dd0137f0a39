import HornPlan.Chaining
import HornPlan.Proofs.Unification

/-!
# Matching goals against facts

Facts are closed, so unifying a goal with a fact binds variables to closed terms only.  A
substitution of that kind is its own solution, and applying it is a single replacement of variables.

`satisfy` lists an extension for every way to turn the goals into facts: each extension listed turns
them into facts, and every assignment that does so solves one of them.  The answers to a conjunction
are the extensions cut down to the variables of the goals.
-/

namespace HornPlan

namespace Substitution

/-! ## Substitutions by closed terms -/

/-- All terms of a substitution are closed. -/
def Closed (σ : Substitution) : Prop :=
  ∀ binding ∈ σ.bindings, binding.2.Closed

/-- What a variable is bound to, or the variable. -/
def value (σ : Substitution) (x : Variable) : Term :=
  (σ.lookup x.name).getD (.var x)

theorem closed_empty : (∅ : Substitution).Closed :=
  fun _ h => absurd h List.not_mem_nil

theorem Closed.insert {σ : Substitution} (hσ : σ.Closed) {name : String} (h : name ∉ σ.names)
    {t : Term} (ht : t.Closed) : (σ.insert name t).Closed := by
  intro binding hbinding
  rw [bindings_insert h, List.mem_append, List.mem_singleton] at hbinding
  rcases hbinding with hbinding | rfl
  · exact hσ binding hbinding
  · exact ht

variable {σ : Substitution}

theorem Closed.isProper (hσ : σ.Closed) : σ.IsProper :=
  fun binding hbinding => (hσ binding hbinding).1

theorem Closed.of_lookup (hσ : σ.Closed) {name : String} {t : Term} (h : σ.lookup name = some t) :
    t.Closed :=
  hσ _ (lookup_eq_some_iff.mp h)

theorem Closed.triangular (hσ : σ.Closed) : σ.Triangular := by
  refine ⟨fun _ => 0, fun name t ht => ⟨?_, ?_⟩⟩
  · exact List.length_pos_of_mem (lookup_eq_some_iff.mp ht)
  · intro y hy
    rw [(hσ.of_lookup ht).2] at hy
    exact absurd hy List.not_mem_nil

theorem Closed.resolve_succ (hσ : σ.Closed) (depth : Nat) (t : Term) :
    σ.resolve (depth + 1) t = t.bind σ.value := by
  refine Term.bind_congr ?_
  intro x _
  unfold value
  split
  · rename_i u hu
    rw [hu, Option.getD_some, resolve_eq_bind, Term.Closed.bind_eq (hσ.of_lookup hu)]
  · rename_i hnone
    rw [hnone, Option.getD_none]

theorem Closed.apply_eq (hσ : σ.Closed) (t : Term) : σ.apply t = t.bind σ.value := by
  unfold apply
  cases hlength : σ.bindings.length with
  | zero =>
      have hvalue : ∀ x, σ.value x = .var x := by
        intro x
        rw [value, lookup, List.length_eq_zero_iff.mp hlength]
        rfl
      exact (Term.bind_eq_self fun x _ => hvalue x).symm
  | succ n => exact hσ.resolve_succ n t

theorem Closed.applyAtom_eq (hσ : σ.Closed) (a : Atom) : σ.applyAtom a = a.bind σ.value := by
  unfold applyAtom Atom.bind
  rw [List.map_congr_left fun t _ => hσ.apply_eq t]

theorem value_of_mem_names (hσ : σ.Closed) {x : Variable} (hx : x.name ∈ σ.names) :
    (σ.value x).Closed := by
  obtain ⟨t, ht⟩ := mem_names.mp hx
  have hlookup := lookup_eq_some_iff.mpr ht
  rw [value, hlookup, Option.getD_some]
  exact hσ.of_lookup hlookup

theorem Closed.solvedBy_iff (hσ : σ.Closed) {h : Variable → Term} :
    σ.SolvedBy h ↔ ∀ x t, σ.lookup x.name = some t → h x = t := by
  refine forall_congr' fun x => forall_congr' fun t => forall_congr' ?_
  intro ht
  rw [Term.Closed.bind_eq (hσ.of_lookup ht)]

theorem Closed.value_eq (hσ : σ.Closed) {h : Variable → Term} (hsolved : σ.SolvedBy h)
    {x : Variable} (hx : x.name ∈ σ.names) : σ.value x = h x := by
  obtain ⟨t, ht⟩ := mem_names.mp hx
  have hlookup := lookup_eq_some_iff.mpr ht
  rw [value, hlookup, Option.getD_some, hσ.solvedBy_iff.mp hsolved x t hlookup]

theorem Closed.solvedBy_value (hσ : σ.Closed) : σ.SolvedBy σ.value := by
  refine hσ.solvedBy_iff.mpr ?_
  intro x t ht
  rw [value, ht, Option.getD_some]

/-! ## Matching one goal -/

/-- Bindings forced by pairs with closed right sides are closed. -/
theorem solve_closed {budget : Nat} {pairs : List (Term × Term)} (hσ : σ.Closed)
    (hpairs : ProperPairs pairs) (hright : ∀ p ∈ pairs, p.2.Closed) {θ : Substitution}
    (h : solve budget σ pairs = some θ) : θ.Closed := by
  fun_induction solve budget σ pairs with
  | case1 budget σ pairs hd =>
      cases h
      exact hσ
  | case2 σ pairs d hd x s budget hb ih =>
      have hforces := forces_of_difference? hσ.triangular hσ.isProper hpairs hd hb
      obtain ⟨before, p, after, d₀, rfl, -, hp, rfl⟩ := difference?_eq_some hd
      have hmem : p ∈ before ++ p :: after := by simp
      have hspec := Term.difference?_spec (isProper_apply hσ.isProper (hpairs p hmem).1)
        (isProper_apply hσ.isProper (hpairs p hmem).2)
      rw [hp, hσ.apply_eq p.2, Term.Closed.bind_eq (hright p hmem)] at hspec
      have hparts : ∀ q ∈ d₀.pairs, q.2.Closed := fun q hq =>
        (hright p hmem).of_mem_subterms
          (by simpa [Term.subtermsList] using (hspec.parts q hq).2)
      refine ih (hσ.insert hforces.unbound ?_) hforces.properRest ?_ h
      · -- the variable is on the left, since the right side is closed
        have hside := hparts (d₀.left, d₀.right) (List.mem_cons_self ..)
        rcases (Difference.binding?_eq_some hb).2 with ⟨-, hs⟩ | ⟨-, hx⟩
        · exact hs ▸ hside
        · simp only at hx
          rw [hx] at hside
          cases hside.2
      · intro q hq
        rcases List.mem_append.mp hq with hq | hq
        · exact hparts q (List.mem_cons_of_mem _ hq)
        · exact hright q (by simp [hq])
  | case3 => cases h

/-- An extension under which a goal is a fact: it has the solutions that turn the goal into the
fact, and it binds the variables of the goal and no others. -/
structure Matches (σ : Substitution) (goal f : Atom) (θ : Substitution) : Prop where
  closed : θ.Closed
  extends_bindings : σ.bindings <+: θ.bindings
  bound : ∀ x ∈ goal.vars, x.name ∈ θ.names
  names : ∀ name ∈ θ.names, name ∈ σ.names ∨ ∃ x ∈ goal.vars, x.name = name
  solvedBy : ∀ h, θ.SolvedBy h ↔ σ.SolvedBy h ∧ goal.bind h = f

theorem properPairs_atoms {a b : Atom} (ha : a.isProper) (hb : b.isProper) :
    ProperPairs [(a.toTerm, b.toTerm)] := by
  intro p hp
  obtain rfl := List.mem_singleton.mp hp
  exact ⟨ha, hb⟩

/-- **Unifying a goal with a fact matches it.** -/
theorem matches_of_unifyAtoms? (hσ : σ.Closed) {goal f : Atom} (hgoal : goal.isProper)
    (hf : f.Closed) {θ : Substitution} (h : σ.unifyAtoms? goal f = some θ) :
    σ.Matches goal f θ := by
  have hpairs := properPairs_atoms hgoal hf.1
  have hgeneral := mostGeneral_of_unifyPairs? hσ.triangular hσ.isProper hpairs h
  have hclosed : θ.Closed := solve_closed hσ hpairs
    (fun p hp => by obtain rfl := List.mem_singleton.mp hp; exact hf) h
  have hsolved : ∀ h, θ.SolvedBy h ↔ σ.SolvedBy h ∧ goal.bind h = f := by
    intro h
    rw [hgeneral.solvedBy, unifies_atoms, hf.bind_eq]
  refine ⟨hclosed, hgeneral.extends_bindings, ?_, ?_, hsolved⟩
  · -- the values of `θ` turn the goal into a fact, which has no variables
    intro x hx
    have hgoalValue := ((hsolved _).mp hclosed.solvedBy_value).2
    have hvalue := (Atom.closed_bind.mp (hgoalValue ▸ hf)).2 x hx
    by_contra hnone
    rw [value, lookup_eq_none_iff.mpr hnone] at hvalue
    cases hvalue.2
  · intro name hname
    refine (hgeneral.names name hname).imp_right fun ⟨y, hy, hyname⟩ => ⟨y, ?_, hyname⟩
    -- a name that is new belongs to a variable of the goal, as neither the fact nor the old terms
    -- have any
    rcases mem_occurrences.mp (mem_freeVariables.mp hy).1 with ⟨p, hp, hyp⟩ | ⟨binding, hb, hyb⟩
    · obtain rfl := List.mem_singleton.mp hp
      rcases hyp with hyp | hyp
      · exact hyp
      · rw [hf.2] at hyp
        exact absurd hyp List.not_mem_nil
    · rw [(hσ binding hb).2] at hyb
      exact absurd hyb List.not_mem_nil

theorem ne_of_unifyAtoms?_eq_none (hσ : σ.Closed) {goal f : Atom} (hgoal : goal.isProper)
    (hf : f.Closed) (h : σ.unifyAtoms? goal f = none) {g : Variable → Term}
    (hsolved : σ.SolvedBy g) : goal.bind g ≠ f := by
  have :=
    not_unifies_of_unifyPairs? hσ.triangular hσ.isProper (properPairs_atoms hgoal hf.1) h hsolved
  rwa [unifies_atoms, hf.bind_eq] at this

end Substitution

/-! ## Matching several goals -/

open Substitution

/-- What an extension listed by `satisfy` is: it binds the variables of the goals and no others, and
its solutions turn every goal into a fact. -/
structure Satisfies (facts goals : List Atom) (σ θ : Substitution) : Prop where
  closed : θ.Closed
  extends_bindings : σ.bindings <+: θ.bindings
  bound : ∀ g ∈ goals, ∀ x ∈ g.vars, x.name ∈ θ.names
  names : ∀ name ∈ θ.names, name ∈ σ.names ∨ ∃ g ∈ goals, ∃ x ∈ g.vars, x.name = name
  solvedBy : ∀ h, θ.SolvedBy h → σ.SolvedBy h ∧ ∀ g ∈ goals, g.bind h ∈ facts

theorem names_subset_of_prefix {σ θ : Substitution} (h : σ.bindings <+: θ.bindings) :
    σ.names ⊆ θ.names :=
  (h.map Prod.fst).subset

theorem mem_candidates {goal f : Atom} (hgoal : goal.isProper) {facts : List Atom} :
    f ∈ goal.candidates facts ↔ f ∈ facts ∧ f.key = goal.key := by
  rw [Atom.candidates, List.mem_filter, Atom.key_beq_iff (Or.inr hgoal)]

variable {facts goals : List Atom} {σ : Substitution}

/-- **Every extension that is listed turns the goals into facts.** -/
theorem satisfies_of_mem_satisfy (hfacts : ∀ f ∈ facts, f.Closed)
    (hgoals : ∀ g ∈ goals, g.isProper) (hσ : σ.Closed) {θ : Substitution}
    (hθ : θ ∈ satisfy facts goals σ) : Satisfies facts goals σ θ := by
  -- induction on the goals, each matched under the bindings that the goals before it took
  induction goals generalizing σ with
  | nil =>
      obtain rfl := List.mem_singleton.mp hθ
      exact ⟨hσ, List.prefix_refl _, fun g hg => absurd hg List.not_mem_nil, fun _ => Or.inl,
        fun h hsolved => ⟨hsolved, fun g hg => absurd hg List.not_mem_nil⟩⟩
  | cons goal goals ih =>
      rw [satisfy, List.mem_flatMap] at hθ
      obtain ⟨f, hf, hθ⟩ := hθ
      have hmem : f ∈ facts := (List.mem_filter.mp hf).1
      split at hθ
      · rename_i μ hμ
        have hmatch :=
          matches_of_unifyAtoms? hσ (hgoals goal (List.mem_cons_self ..)) (hfacts f hmem) hμ
        have hrest := ih (fun g hg => hgoals g (List.mem_cons_of_mem _ hg)) hmatch.closed hθ
        refine ⟨hrest.closed, hmatch.extends_bindings.trans hrest.extends_bindings, ?_, ?_,
          ?_⟩
        · refine List.forall_mem_cons.mpr ⟨?_, hrest.bound⟩
          intro x hx
          exact names_subset_of_prefix hrest.extends_bindings (hmatch.bound x hx)
        · intro name hname
          rcases hrest.names name hname with hname | ⟨g, hg, hx⟩
          · exact (hmatch.names name hname).imp_right fun hx => ⟨goal, List.mem_cons_self .., hx⟩
          · exact Or.inr ⟨g, List.mem_cons_of_mem _ hg, hx⟩
        · intro h hsolved
          obtain ⟨hμsolved, hgoalsMem⟩ := hrest.solvedBy h hsolved
          obtain ⟨hσsolved, hgoalMem⟩ := (hmatch.solvedBy h).mp hμsolved
          exact ⟨hσsolved, List.forall_mem_cons.mpr ⟨hgoalMem ▸ hmem, hgoalsMem⟩⟩
      · exact absurd hθ List.not_mem_nil

/-- **Every assignment that turns the goals into facts is found.** -/
theorem exists_mem_satisfy (hfacts : ∀ f ∈ facts, f.Closed)
    (hgoals : ∀ g ∈ goals, g.isProper) (hσ : σ.Closed) {h : Variable → Term}
    (hsolved : σ.SolvedBy h) (hmem : ∀ g ∈ goals, g.bind h ∈ facts) :
    ∃ θ ∈ satisfy facts goals σ, θ.SolvedBy h := by
  induction goals generalizing σ with
  | nil => exact ⟨σ, List.mem_singleton_self σ, hsolved⟩
  | cons goal goals ih =>
      obtain ⟨hgoal, hrest⟩ := List.forall_mem_cons.mp hgoals
      obtain ⟨hgoalMem, hrestMem⟩ := List.forall_mem_cons.mp hmem
      have hclosed := hfacts _ hgoalMem
      have hcandidate : goal.bind h ∈ goal.candidates facts :=
        (mem_candidates hgoal).mpr ⟨hgoalMem, Atom.key_bind h goal⟩
      cases hμ : σ.unifyAtoms? goal (goal.bind h) with
      | none => exact absurd rfl (ne_of_unifyAtoms?_eq_none hσ hgoal hclosed hμ hsolved)
      | some μ =>
          have hmatch := matches_of_unifyAtoms? hσ hgoal hclosed hμ
          obtain ⟨θ, hθ, hθsolved⟩ :=
            ih hrest hmatch.closed ((hmatch.solvedBy h).mpr ⟨hsolved, rfl⟩) hrestMem
          refine ⟨θ, ?_, hθsolved⟩
          rw [satisfy, List.mem_flatMap]
          exact ⟨_, hcandidate, by rw [hμ]; exact hθ⟩

/-- **A conjunction has a first match exactly when some assignment turns the goals into facts.** -/
theorem firstMatch?_isSome_iff (hfacts : ∀ f ∈ facts, f.Closed) (hgoals : ∀ g ∈ goals, g.isProper) :
    (firstMatch? facts goals ∅).isSome ↔ ∃ h : Variable → Term, ∀ g ∈ goals, g.bind h ∈ facts := by
  rw [firstMatch?_eq_head?, List.isSome_head?, ne_eq, List.eq_nil_iff_forall_not_mem,
    not_forall_not]
  constructor
  · rintro ⟨θ, hθ⟩
    have hsat := satisfies_of_mem_satisfy hfacts hgoals closed_empty hθ
    exact ⟨θ.value, (hsat.solvedBy _ hsat.closed.solvedBy_value).2⟩
  · rintro ⟨h, hmem⟩
    obtain ⟨θ, hθ, -⟩ := exists_mem_satisfy hfacts hgoals closed_empty (solvedBy_empty h) hmem
    exact ⟨θ, hθ⟩

/-! ## Answers -/

namespace Substitution

theorem bindings_foldl_insert {bindings : List (String × Term)} {σ : Substitution}
    (h : (σ.names ++ bindings.map Prod.fst).Nodup) :
    (bindings.foldl (fun σ binding => σ.insert binding.1 binding.2) σ).bindings
      = σ.bindings ++ bindings := by
  induction bindings generalizing σ with
  | nil => exact (List.append_nil _).symm
  | cons binding rest ih =>
      have hfresh : binding.1 ∉ σ.names := fun hmem =>
        (List.disjoint_of_nodup_append h) hmem (List.mem_cons_self ..)
      rw [List.foldl_cons, ih, bindings_insert hfresh, List.append_assoc, List.singleton_append]
      rw [names_insert hfresh, List.append_assoc]
      exact h

theorem bindings_ofList {bindings : List (String × Term)} (h : (bindings.map Prod.fst).Nodup) :
    (ofList bindings).bindings = bindings :=
  bindings_foldl_insert h

theorem Closed.bindings_restrict {σ : Substitution} (hσ : σ.Closed) {xs : List Variable}
    (hnodup : xs.Nodup) (hbound : ∀ x ∈ xs, x.name ∈ σ.names) :
    (σ.restrict xs).bindings = xs.map fun x => (x.name, σ.value x) := by
  have hkept : xs.filter (fun x => (σ.lookup x.name).isSome) = xs := by
    refine List.filter_eq_self.mpr ?_
    intro x hx
    obtain ⟨t, ht⟩ := mem_names.mp (hbound x hx)
    rw [lookup_eq_some_iff.mpr ht, Option.isSome_some]
  unfold restrict
  rw [hkept, bindings_ofList]
  · simp only [hσ.apply_eq, Term.bind_var]
  · rw [List.map_map]
    exact hnodup.map fun x y => Variable.eq_of_name_eq

theorem eq_of_codeOf_eq {bindings others : List (String × Term)}
    (hproper : ∀ binding ∈ bindings, binding.2.isProper) (h : codeOf bindings = codeOf others) :
    bindings = others := by
  induction bindings generalizing others with
  | nil =>
      cases others with
      | nil => rfl
      | cons other others => simp [codeOf, textCode] at h
  | cons binding bindings ih =>
      cases others with
      | nil => simp [codeOf, textCode] at h
      | cons other others =>
          rw [codeOf, codeOf, List.append_assoc, List.append_assoc] at h
          obtain ⟨hname, hrest⟩ := textCode_append_inj h
          obtain ⟨hsame, hrest⟩ := Term.code_append_inj _ _ hrest
          have hterm := Term.eq_of_beq_of_isProper (hproper binding (List.mem_cons_self ..)) hsame
          rw [ih (fun b hb => hproper b (List.mem_cons_of_mem _ hb)) hrest]
          exact congrArg (· :: others) (Prod.ext hname hterm)

theorem IsProper.eq_of_beq {σ τ : Substitution} (hσ : σ.IsProper) (h : σ == τ) : σ = τ :=
  eq_of_bindings_eq (eq_of_codeOf_eq hσ (beq_iff_code_eq.mp h))

end Substitution

/-- What an answer to a conjunction is: it binds the variables of the goals to closed terms, and no
other variables, and turns every goal into a fact. -/
structure IsAnswer (facts goals : List Atom) (a : Substitution) : Prop where
  closed : a.Closed
  names_eq : a.names = (queryVariables goals).map (·.name)
  mem_facts : ∀ g ∈ goals, g.bind a.value ∈ facts

theorem nodup_queryVariables (goals : List Atom) : (queryVariables goals).Nodup :=
  nodup_eraseDups _

theorem mem_queryVariables {x : Variable} : x ∈ queryVariables goals ↔ ∃ g ∈ goals, x ∈ g.vars := by
  rw [queryVariables, List.mem_eraseDups, List.mem_flatMap]

theorem IsAnswer.mem_names {a : Substitution} (ha : IsAnswer facts goals a) {x : Variable} :
    x.name ∈ a.names ↔ ∃ g ∈ goals, x ∈ g.vars := by
  rw [ha.names_eq, ← mem_queryVariables, List.mem_map]
  constructor
  · rintro ⟨y, hy, hname⟩
    exact Variable.eq_of_name_eq hname ▸ hy
  · intro hx
    exact ⟨x, hx, rfl⟩

/-- Cutting an extension down to the variables of the goals makes an answer of it, with the values
that the extension has. -/
theorem Satisfies.isAnswer_restrict {θ : Substitution} (hsat : Satisfies facts goals ∅ θ) :
    IsAnswer facts goals (θ.restrict (queryVariables goals)) ∧
      ∀ x ∈ queryVariables goals, (θ.restrict (queryVariables goals)).value x = θ.value x := by
  have hbound : ∀ x ∈ queryVariables goals, x.name ∈ θ.names := by
    intro x hx
    obtain ⟨g, hg, hxg⟩ := mem_queryVariables.mp hx
    exact hsat.bound g hg x hxg
  have hbindings := hsat.closed.bindings_restrict (nodup_queryVariables goals) hbound
  have hvalue : ∀ x ∈ queryVariables goals,
      (θ.restrict (queryVariables goals)).value x = θ.value x := fun x hx => by
    have hmem : (x.name, θ.value x) ∈ (θ.restrict (queryVariables goals)).bindings := by
      rw [hbindings]
      exact List.mem_map.mpr ⟨x, hx, rfl⟩
    rw [value, lookup_eq_some_iff.mpr hmem, Option.getD_some]
  -- the values are closed, the names are those of the goals, and the goals become facts
  refine ⟨⟨?_, ?_, ?_⟩, hvalue⟩
  · intro binding hbinding
    rw [hbindings] at hbinding
    obtain ⟨x, hx, rfl⟩ := List.mem_map.mp hbinding
    exact value_of_mem_names hsat.closed (hbound x hx)
  · rw [Substitution.names, hbindings, List.map_map]
    rfl
  · intro g hg
    have hsame : g.bind (θ.restrict (queryVariables goals)).value = g.bind θ.value :=
      Atom.bind_congr fun x hx => hvalue x (mem_queryVariables.mpr ⟨g, hg, hx⟩)
    rw [hsame]
    exact (hsat.solvedBy _ hsat.closed.solvedBy_value).2 g hg

/-- **Every answer listed is one.** -/
theorem isAnswer_of_mem_answers (hfacts : ∀ f ∈ facts, f.Closed) (hgoals : ∀ g ∈ goals, g.isProper)
    {a : Substitution} (ha : a ∈ answers facts goals) : IsAnswer facts goals a := by
  rw [answers_eq_eraseDups] at ha
  obtain ⟨θ, hθ, rfl⟩ := List.mem_map.mp (mem_of_mem_eraseDups ha)
  exact (satisfies_of_mem_satisfy hfacts hgoals closed_empty hθ).isAnswer_restrict.1

/-- **Every assignment that turns the goals into facts is an answer listed.** -/
theorem exists_mem_answers (hfacts : ∀ f ∈ facts, f.Closed) (hgoals : ∀ g ∈ goals, g.isProper)
    {h : Variable → Term} (hmem : ∀ g ∈ goals, g.bind h ∈ facts) :
    ∃ a ∈ answers facts goals, ∀ g ∈ goals, ∀ x ∈ g.vars, a.value x = h x := by
  obtain ⟨θ, hθ, hsolved⟩ := exists_mem_satisfy hfacts hgoals closed_empty (solvedBy_empty h) hmem
  have hsat := satisfies_of_mem_satisfy hfacts hgoals closed_empty hθ
  refine ⟨θ.restrict (queryVariables goals), ?_, ?_⟩
  · rw [answers_eq_eraseDups]
    refine mem_eraseDups_of_mem ?_ (List.mem_map.mpr ⟨θ, hθ, rfl⟩)
    intro b hb c hbc
    obtain ⟨μ, hμ, rfl⟩ := List.mem_map.mp hb
    have hanswer := (satisfies_of_mem_satisfy hfacts hgoals closed_empty hμ).isAnswer_restrict.1
    exact hanswer.closed.isProper.eq_of_beq hbc
  · intro g hg x hx
    rw [hsat.isAnswer_restrict.2 x (mem_queryVariables.mpr ⟨g, hg, hx⟩)]
    exact hsat.closed.value_eq hsolved (hsat.bound g hg x hx)

end HornPlan
