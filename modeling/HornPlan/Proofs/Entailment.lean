import HornPlan.Entailment
import HornPlan.Proofs.KnowledgeBases
import HornPlan.Proofs.States

/-!
# What holds in a state

The *consequences* of facts under rules are the least set of facts that holds these and is closed
under the rules.  They are what the knowledge base of a state entails (`mem_closure_iff`).

A conjunction that holds in a state has goals of two kinds: those that match a fact of the state,
and those whose predicate some rule concludes (`attained_of_holds`).  For a goal of the first kind
actions alone can make a difference, which is what the relaxed graph goes by.
-/

namespace HornPlan

/-! ## The knowledge base of a state -/

/-- Telling statements one after the other appends the clauses that they stand for. -/
theorem ofStatements_spec {statements : List Statement} {cs : List Clause} {kb next : KnowledgeBase}
    (hcs : statements.mapM Statement.clause? = .ok cs) (hkb : kb.Proper)
    (hproper : ∀ c ∈ cs, c.isProper)
    (h : statements.foldlM (fun kb c => do kb.tell (← c.clause?)) kb = .ok next) :
    next.Proper ∧ next.clauses = kb.clauses ++ cs := by
  induction statements generalizing kb cs with
  | nil =>
      obtain rfl := Except.ok.inj hcs
      obtain rfl := Except.ok.inj h
      exact ⟨hkb, (List.append_nil _).symm⟩
  | cons statement statements ih =>
      obtain ⟨c, rest, hc, hrest, rfl⟩ := mapM_cons_eq_ok.mp hcs
      obtain ⟨hcproper, hrestProper⟩ := List.forall_mem_cons.mp hproper
      rw [List.foldlM_cons, hc, ok_bind] at h
      obtain ⟨told, htold, h⟩ := bind_eq_ok.mp h
      obtain ⟨hnext, hclauses⟩ := ih hrest (hkb.tell hcproper htold) hrestProper h
      refine ⟨hnext, ?_⟩
      rw [hclauses, KnowledgeBase.clauses_of_tell htold, List.append_assoc, List.singleton_append]

variable {s : State} {e : Enumeration} {rules : List Clause} {goals : List Atom}

theorem State.lookUp_eq {f : Atom} (hf : f.isProper) (s : State) :
    s.lookUp f.toTerm = .ok (s.holdsFact f) :=
  if_pos (Term.isIndexable_of_isProper hf)

/-- The knowledge base of a state has the rules and the facts of the state for its clauses. -/
theorem knowledgeBase_spec (hs : s.Proper) (hrules : ∀ r ∈ rules, r.isProper) {kb : KnowledgeBase}
    (h : e.knowledgeBase s rules = .ok kb) :
    kb.Proper ∧ ∀ c, c ∈ kb.clauses ↔ c ∈ rules ∨ ∃ f ∈ s.facts, .ofAtom f = c := by
  rw [Enumeration.knowledgeBase, hs.entries?_eq, ok_bind] at h
  -- every entry stands for the fact that it is
  have hread :
      ∃ cs, (rules.map Sum.inl ++ (e.entries s).map Sum.inr).mapM Statement.clause? = .ok cs ∧
      List.Forall₂ (fun statement c => Statement.clause? statement = .ok c)
        (rules.map Sum.inl ++ (e.entries s).map Sum.inr) cs := by
    refine exists_mapM_eq_ok ?_
    intro statement hstatement
    rcases List.mem_append.mp hstatement with hmem | hmem
    · obtain ⟨r, -, rfl⟩ := List.mem_map.mp hmem
      exact ⟨r, rfl, rfl⟩
    · obtain ⟨t, ht, rfl⟩ := List.mem_map.mp hmem
      obtain ⟨f, -, rfl⟩ := hs.mem_entries.mp ht
      exact ⟨.ofAtom f, rfl, rfl⟩
  obtain ⟨cs, hcs, hpairs⟩ := hread
  have horigin : ∀ c, c ∈ cs ↔ c ∈ rules ∨ ∃ f ∈ s.facts, .ofAtom f = c := by
    intro c
    constructor
    · intro hc
      obtain ⟨statement, hstatement, hclause⟩ := exists_of_mem_right hpairs hc
      rcases List.mem_append.mp hstatement with hmem | hmem
      · obtain ⟨r, hr, rfl⟩ := List.mem_map.mp hmem
        exact Or.inl (Except.ok.inj hclause ▸ hr)
      · obtain ⟨t, ht, rfl⟩ := List.mem_map.mp hmem
        obtain ⟨f, hf, rfl⟩ := hs.mem_entries.mp ht
        exact Or.inr ⟨f, hf, Except.ok.inj hclause⟩
    · rintro (hr | ⟨f, hf, rfl⟩)
      · obtain ⟨d, hd, hclause⟩ := exists_of_mem_left hpairs
          (List.mem_append_left _ (List.mem_map_of_mem hr))
        exact Except.ok.inj hclause ▸ hd
      · have hentry : f.toTerm ∈ e.entries s := hs.mem_entries.mpr ⟨f, hf, rfl⟩
        obtain ⟨d, hd, hclause⟩ := exists_of_mem_left hpairs
          (List.mem_append_right _ (List.mem_map_of_mem hentry))
        exact Except.ok.inj hclause ▸ hd
  have hproper : ∀ c ∈ cs, c.isProper := by
    intro c hc
    rcases (horigin c).mp hc with hr | ⟨f, hf, rfl⟩
    · exact hrules c hr
    · exact Clause.isProper_iff.mpr ⟨fun a ha => absurd ha List.not_mem_nil, (hs.closed f hf).1⟩
  obtain ⟨hkb, hclauses⟩ := ofStatements_spec hcs KnowledgeBase.proper_empty hproper h
  have hclauses : kb.clauses = cs := hclauses
  exact ⟨hkb, fun c => hclauses ▸ horigin c⟩

/-! ## Consequences -/

/-- The facts in every set that holds the given ones and is closed under the rules. -/
def Consequences (rules : List Clause) (facts : List Atom) : Set Atom :=
  {f | ∀ S : Set Atom, (∀ g ∈ facts, g ∈ S) → ClosedUnder rules S → f ∈ S}

theorem isLeast_consequences (rules : List Clause) (facts : List Atom) :
    IsLeast {S : Set Atom | (∀ g ∈ facts, g ∈ S) ∧ ClosedUnder rules S}
      (Consequences rules facts) := by
  refine ⟨⟨fun g hg S hfacts _ => hfacts g hg, ?_⟩, fun S hS f hf => hf S hS.1 hS.2⟩
  intro r hr h hground hbody S hfacts hS
  exact hS r hr h hground fun a ha => hbody a ha S hfacts hS

/-- A consequence is one of the facts, or has the predicate that a rule concludes. -/
theorem mem_or_concluded_of_mem_consequences {facts : List Atom} {f : Atom}
    (hf : f ∈ Consequences rules facts) : f ∈ facts ∨ ∃ r ∈ rules, r.consequent.key = f.key :=
  hf {f | f ∈ facts ∨ ∃ r ∈ rules, r.consequent.key = f.key} (fun _ hg => Or.inl hg)
    fun r hr h _ _ => Or.inr ⟨r, hr, (Atom.key_bind h r.consequent).symm⟩

variable {kb : KnowledgeBase}

/-- A set of facts holds what the knowledge base of a state asserts and is closed under its rules
exactly when it holds the facts of the state and is closed under all the clauses given, facts among
them included. -/
theorem holds_asserted_iff (hs : s.Proper) (hrules : ∀ r ∈ rules, r.isProper)
    (h : e.knowledgeBase s rules = .ok kb) {S : Set Atom} :
    (∀ g ∈ kb.facts, g ∈ S) ∧ ClosedUnder kb.rules S ↔ (∀ g ∈ s.facts, g ∈ S) ∧
    ClosedUnder rules S := by
  have horigin := (knowledgeBase_spec hs hrules h).2
  constructor
  · rintro ⟨hfacts, hclosed⟩
    refine ⟨fun f hf => ?_, fun r hr k hground hbody => ?_⟩
    · have hclause : .ofAtom f ∈ kb.clauses := (horigin _).mpr (Or.inr ⟨f, hf, rfl⟩)
      exact hfacts f (KnowledgeBase.mem_facts.mpr ⟨_, hclause, rfl, rfl⟩)
    · have hclause : r ∈ kb.clauses := (horigin r).mpr (Or.inl hr)
      by_cases hfact : r.isFact
      · rw [((kb.safe r hclause).closed_of_isFact (hrules r hr) hfact).bind_eq]
        exact hfacts _ (KnowledgeBase.mem_facts.mpr ⟨r, hclause, hfact, rfl⟩)
      · have hrule : r ∈ kb.rules :=
          KnowledgeBase.mem_rules.mpr ⟨hclause, by simp [Clause.isRule, hfact]⟩
        exact hclosed r hrule k hground hbody
  · rintro ⟨hfacts, hclosed⟩
    refine ⟨fun g hg => ?_, fun r hr => ?_⟩
    · obtain ⟨c, hc, hfact, rfl⟩ := KnowledgeBase.mem_facts.mp hg
      rcases (horigin c).mp hc with hmem | ⟨f, hf, rfl⟩
      · -- the one instance of a fact is the fact
        have hconsequent := hclosed c hmem .var
          (by simp [(kb.safe c hc).vars_of_isFact hfact]) (by simp [List.isEmpty_iff.mp hfact])
        rwa [Atom.bind_eq_self] at hconsequent
      · exact hfacts f hf
    · obtain ⟨hclause, hrule⟩ := KnowledgeBase.mem_rules.mp hr
      rcases (horigin r).mp hclause with hmem | ⟨f, -, rfl⟩
      · exact hclosed r hmem
      · cases hrule

/-- **The knowledge base of a state entails the consequences of its facts.** -/
theorem mem_closure_iff (hs : s.Proper) (hrules : ∀ r ∈ rules, r.isProper)
    (h : e.knowledgeBase s rules = .ok kb) {facts : List Atom} (hfacts : kb.closure = .ok facts)
    {f : Atom} : f ∈ facts ↔ f ∈ Consequences rules s.facts := by
  have hkb := (knowledgeBase_spec hs hrules h).1
  have hleast := (hkb.isClosure hfacts).least
  simp only [holds_asserted_iff hs hrules h] at hleast
  exact Set.ext_iff.mp (hleast.unique (isLeast_consequences rules s.facts)) f

/-! ## Conjunctions that hold -/

/-- A goal can be made true by adding facts: one that matches it is there, or a rule concludes
it. -/
def Attained (rules : List Clause) (facts : List Atom) (goal : Atom) : Prop :=
  (∃ r ∈ rules, r.consequent.key = goal.key) ∨ ∃ h : Variable → Term, goal.bind h ∈ facts

theorem Attained.mono {facts more : List Atom} {goal : Atom} (h : Attained rules facts goal)
    (hsub : facts ⊆ more) : Attained rules more goal :=
  h.imp_right fun ⟨k, hk⟩ => ⟨k, hsub hk⟩

/-- **Every goal of a conjunction that holds is attained.** -/
theorem attained_of_holds (hs : s.Proper) (hrules : ∀ r ∈ rules, r.isProper)
    (hgoals : ∀ g ∈ goals, g.isProper) (h : e.holds s goals rules = .ok true) :
    ∀ g ∈ goals, Attained rules s.facts g := by
  unfold Enumeration.holds at h
  split at h
  · rename_i hempty
    rw [List.isEmpty_iff.mp hempty]
    intro g hg
    exact absurd hg List.not_mem_nil
  · obtain ⟨_, -, h⟩ := bind_eq_ok.mp h
    obtain ⟨lookup, -, h⟩ := bind_eq_ok.mp h
    cases lookup with
    | true =>
        -- all goals are ground facts of the state
        rw [if_pos rfl, allM_eq_ok fun g hg => s.lookUp_eq (hgoals g hg)] at h
        intro g hg
        have hholds := List.all_eq_true.mp (Except.ok.inj h) g hg
        exact Or.inr ⟨.var, by rw [Atom.bind_eq_self]; exact hs.holdsFact_iff.mp hholds⟩
    | false =>
        obtain ⟨kb, hkb, h⟩ := bind_eq_ok.mp h
        obtain ⟨⟨answer, next⟩, hask, h⟩ := bind_eq_ok.mp h
        have hproper := (knowledgeBase_spec hs hrules hkb).1
        obtain ⟨facts, hfacts, -⟩ := hproper.exists_closure
        obtain ⟨found, rest, hfound, hiff⟩ := hproper.ask_spec hfacts hgoals
        obtain ⟨rfl, -⟩ := Prod.mk.inj (Except.ok.inj (hask.symm.trans hfound))
        obtain ⟨k, hk⟩ := hiff.mp (Except.ok.inj h)
        intro g hg
        have hconsequence := (mem_closure_iff hs hrules hkb hfacts).mp (hk g hg)
        rcases mem_or_concluded_of_mem_consequences hconsequence with hmem | ⟨r, hr, hkey⟩
        · exact Or.inr ⟨k, hmem⟩
        · exact Or.inl ⟨r, hr, hkey.trans (Atom.key_bind k g)⟩

end HornPlan
