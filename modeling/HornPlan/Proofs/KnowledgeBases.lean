import HornPlan.KnowledgeBase
import HornPlan.Proofs.Chaining

/-!
# Knowledge bases answer from the least closed set of facts

Clauses are told and retracted, and queries fill the cache in between.  `KnowledgeBase.Proper` holds
of all knowledge bases that arise in this way from proper clauses: the clauses are proper, and what
is cached is what chaining finds.

The closure of such a knowledge base is the least set of facts that holds the asserted ones and is
closed under the rules (`Reached.closure_eq_least`).  Queries are answered from it: `askAll` lists
the answers (`Proper.askAll_spec`), and `ask` finds one exactly when there is one
(`Proper.ask_spec`), though it may stop before chaining has come to its end.
-/

namespace HornPlan.KnowledgeBase

/-- The clauses are proper, and what is cached is what chaining finds. -/
structure Proper (kb : KnowledgeBase) : Prop where
  clauses : ∀ c ∈ kb.clauses, c.isProper
  cached : ∀ facts, kb.cached = some facts → closureOf kb.facts kb.rules = .ok facts

variable {kb next : KnowledgeBase} {facts goals : List Atom}

theorem mem_facts {f : Atom} : f ∈ kb.facts ↔ ∃ c ∈ kb.clauses, c.isFact ∧ c.consequent = f := by
  simp [facts, Clause.factsOf, and_assoc]

theorem mem_rules {c : Clause} : c ∈ kb.rules ↔ c ∈ kb.clauses ∧ c.isRule :=
  List.mem_filter

theorem Proper.base (hkb : kb.Proper) : Base kb.facts kb.rules := by
  refine ⟨?_, ?_⟩
  · intro f hf
    obtain ⟨c, hc, hfact, rfl⟩ := mem_facts.mp hf
    exact (kb.safe c hc).closed_of_isFact (hkb.clauses c hc) hfact
  · intro r hr
    have hmem := (mem_rules.mp hr).1
    exact ⟨hkb.clauses r hmem, kb.safe r hmem⟩

theorem Proper.closure_eq (hkb : kb.Proper) : kb.closure = closureOf kb.facts kb.rules := by
  unfold closure
  split
  · rename_i facts hcached
    exact (hkb.cached facts hcached).symm
  · rfl

theorem Proper.exists_closure (hkb : kb.Proper) :
    ∃ all, kb.closure = .ok all ∧ (∀ f ∈ all, f.Closed) ∧ IsClosure kb.facts kb.rules all := by
  rw [hkb.closure_eq]
  exact exists_closureOf hkb.base

theorem Proper.closed_closure (hkb : kb.Proper) (hfacts : kb.closure = .ok facts) :
    ∀ f ∈ facts, f.Closed := by
  obtain ⟨all, hall, hclosed, -⟩ := hkb.exists_closure
  obtain rfl := Except.ok.inj (hfacts.symm.trans hall)
  exact hclosed

theorem Proper.isClosure (hkb : kb.Proper) (hfacts : kb.closure = .ok facts) :
    IsClosure kb.facts kb.rules facts := by
  obtain ⟨all, hall, -, hclosure⟩ := hkb.exists_closure
  obtain rfl := Except.ok.inj (hfacts.symm.trans hall)
  exact hclosure

/-! ## Telling, retracting and asking keep a knowledge base proper -/

theorem proper_empty : empty.Proper :=
  ⟨fun _ h => absurd h List.not_mem_nil, fun _ h => nomatch h⟩

theorem clauses_of_tell {c : Clause} (h : kb.tell c = .ok next) :
    next.clauses = kb.clauses ++ [c] := by
  unfold KnowledgeBase.tell at h
  split at h
  · cases h
    rfl
  · cases h

theorem Proper.tell (hkb : kb.Proper) {c : Clause} (hc : c.isProper) (h : kb.tell c = .ok next) :
    next.Proper := by
  unfold KnowledgeBase.tell at h
  split at h
  · cases h
    refine ⟨?_, fun _ h => nomatch h⟩
    intro d hd
    rcases List.mem_append.mp hd with hd | hd
    · exact hkb.clauses d hd
    · exact List.mem_singleton.mp hd ▸ hc
  · cases h

theorem Proper.retract (hkb : kb.Proper) (c : Clause) : (kb.retract c).2.Proper := by
  unfold KnowledgeBase.retract
  split
  · exact ⟨fun d hd => hkb.clauses d (List.mem_of_mem_erase hd), fun _ h => nomatch h⟩
  · exact hkb

theorem Proper.fill (hkb : kb.Proper) (hfacts : closureOf kb.facts kb.rules = .ok facts) :
    Proper { kb with cached := some facts } :=
  ⟨hkb.clauses, fun _ h => Option.some.inj h ▸ hfacts⟩

theorem Proper.saturated (hkb : kb.Proper) (h : kb.saturated = .ok (facts, next)) :
    next.Proper ∧ next.clauses = kb.clauses ∧ kb.closure = .ok facts := by
  obtain ⟨all, hall, h⟩ := bind_eq_ok.mp h
  cases h
  exact ⟨hkb.fill (hkb.closure_eq.symm.trans hall), rfl, hall⟩

theorem Proper.askAll (hkb : kb.Proper) {found : List Substitution}
    (h : kb.askAll goals = .ok (found, next)) : next.Proper ∧ next.clauses = kb.clauses := by
  obtain ⟨_, -, h⟩ := bind_eq_ok.mp h
  obtain ⟨possible, -, h⟩ := bind_eq_ok.mp h
  cases possible with
  | true =>
      obtain ⟨⟨facts, filled⟩, hfilled, h⟩ := bind_eq_ok.mp h
      cases h
      have hspec := hkb.saturated hfilled
      exact ⟨hspec.1, hspec.2.1⟩
  | false =>
      cases h
      exact ⟨hkb, rfl⟩

theorem Proper.ask (hkb : kb.Proper) {answer : Option Substitution}
    (h : kb.ask goals = .ok (answer, next)) : next.Proper ∧ next.clauses = kb.clauses := by
  obtain ⟨_, -, h⟩ := bind_eq_ok.mp h
  obtain ⟨possible, -, h⟩ := bind_eq_ok.mp h
  cases possible with
  | true =>
      rw [if_pos rfl] at h
      split at h
      · obtain ⟨⟨facts, filled⟩, hfilled, h⟩ := bind_eq_ok.mp h
        cases h
        have hspec := hkb.saturated hfilled
        exact ⟨hspec.1, hspec.2.1⟩
      · obtain ⟨start, hstart, h⟩ := bind_eq_ok.mp h
        obtain ⟨outcome, houtcome, h⟩ := bind_eq_ok.mp h
        -- an answer leaves no closure to be cached, and without one chaining has come to its end
        cases outcome with
        | inl _ =>
            cases h
            exact ⟨hkb, rfl⟩
        | inr known =>
            cases h
            refine ⟨hkb.fill ?_, rfl⟩
            rw [closureOf, hstart, ok_bind]
            exact saturate_of_chainUntilAnswer houtcome
  | false =>
      cases h
      exact ⟨hkb, rfl⟩

/-- The knowledge bases that proper clauses are told to and retracted from, with queries in
between. -/
inductive Reached : KnowledgeBase → Prop
  | empty : Reached .empty
  | tell {kb next : KnowledgeBase} {c : Clause} (h : Reached kb) (hc : c.isProper)
      (htell : kb.tell c = .ok next) : Reached next
  | retract {kb : KnowledgeBase} (h : Reached kb) (c : Clause) : Reached (kb.retract c).2
  | saturated {kb next : KnowledgeBase} {facts : List Atom} (h : Reached kb)
      (hsaturated : kb.saturated = .ok (facts, next)) : Reached next
  | askAll {kb next : KnowledgeBase} {goals : List Atom} {found : List Substitution}
      (h : Reached kb)
      (hask : kb.askAll goals = .ok (found, next)) : Reached next
  | ask {kb next : KnowledgeBase} {goals : List Atom} {answer : Option Substitution}
      (h : Reached kb)
      (hask : kb.ask goals = .ok (answer, next)) : Reached next

theorem Reached.proper (h : kb.Reached) : kb.Proper := by
  induction h with
  | empty => exact proper_empty
  | tell _ hc htell ih => exact ih.tell hc htell
  | retract _ c ih => exact ih.retract c
  | saturated _ hsaturated ih => exact (ih.saturated hsaturated).1
  | askAll _ hask ih => exact (ih.askAll hask).1
  | ask _ hask ih => exact (ih.ask hask).1

theorem Reached.foldlM_tell {clauses : List Clause} (h : kb.Reached)
    (hclauses : ∀ c ∈ clauses, c.isProper)
    (hnext : clauses.foldlM KnowledgeBase.tell kb = .ok next) : next.Reached := by
  induction clauses generalizing kb with
  | nil =>
      obtain rfl := Except.ok.inj hnext
      exact h
  | cons c clauses ih =>
      obtain ⟨hc, hrest⟩ := List.forall_mem_cons.mp hclauses
      rw [List.foldlM_cons] at hnext
      obtain ⟨told, htold, hnext⟩ := bind_eq_ok.mp hnext
      exact ih (h.tell hc htold) hrest hnext

/-- **The closure is the least set of facts that holds the asserted ones and is closed under the
rules.** It is returned whatever has been told, retracted and asked before, each fact once: first
the asserted facts in order, then facts each of which is derived from those before it. -/
theorem Reached.closure_eq_least (h : kb.Reached) :
    ∃ all, kb.closure = .ok all ∧ IsClosure kb.facts kb.rules all := by
  obtain ⟨all, hall, -, hclosure⟩ := h.proper.exists_closure
  exact ⟨all, hall, hclosure⟩

/-- Two roads that meet, and that roads lead in both directions. -/
def roads : List Clause :=
  let road (a b : Term) : Atom := ⟨.text "Road" (by decide), [a, b]⟩
  let x : Term := .var ⟨"x", by decide⟩
  let y : Term := .var ⟨"y", by decide⟩
  let town (name : String) (h : name ≠ "") (h' : Text.startsLowercase name = false) : Term :=
    .const ⟨name, h, h'⟩
  let middle := town "B" (by decide) (by decide)
  [.ofAtom (road (town "A" (by decide) (by decide)) middle),
   .ofAtom (road (town "C" (by decide) (by decide)) middle), ⟨[road x y], road y x⟩]

/-- Roads from one town to a second and on to a third. -/
def detour : List Atom :=
  let road (a b : Term) : Atom := ⟨.text "Road" (by decide), [a, b]⟩
  let x : Term := .var ⟨"x", by decide⟩
  let y : Term := .var ⟨"y", by decide⟩
  let z : Term := .var ⟨"z", by decide⟩
  [road x y, road y z]

theorem closure_of_roads : ∃ kb, ofClauses roads = .ok kb ∧ kb.Reached ∧
    ∃ all, kb.closure = .ok all ∧ IsClosure kb.facts kb.rules all := by
  obtain ⟨kb, hkb⟩ : ∃ kb, ofClauses roads = .ok kb := ⟨_, rfl⟩
  have hreached : kb.Reached := Reached.empty.foldlM_tell (by decide) hkb
  exact ⟨kb, hkb, hreached, hreached.closure_eq_least⟩

/-! ## Queries -/

theorem requireKey_eq_ok {a : Atom} (ha : a.isProper) : a.requireKey = .ok () := by
  have hindexable := Term.isIndexable_of_isProper ha
  rw [Atom.toTerm, Term.isIndexable, Bool.and_eq_true] at hindexable
  exact if_pos hindexable.1

theorem requireNames_eq_ok (hgoals : ∀ g ∈ goals, g.isProper) : requireNames goals = .ok () := by
  refine if_neg ?_
  intro hany
  obtain ⟨g, hg, hlisted⟩ := List.any_eq_true.mp hany
  have hnone := Term.hasListedVariable_eq_false (hgoals g hg)
  exact absurd (hnone.symm.trans hlisted) Bool.false_ne_true

theorem Proper.couldMatch_eq (hkb : kb.Proper) (hgoals : ∀ g ∈ goals, g.isProper) :
    kb.couldMatch goals
      = .ok (goals.all fun g => kb.clauses.any fun c => c.consequent.key == g.key) := by
  have hclauses : kb.clauses.forM (fun c => c.consequent.requireKey) = .ok () :=
    forM_eq_ok fun c hc => requireKey_eq_ok (Clause.isProper_iff.mp (hkb.clauses c hc)).2
  rw [couldMatch, hclauses, ok_bind]
  exact allM_eq_ok fun g hg => by rw [requireKey_eq_ok (hgoals g hg), ok_bind]; rfl

/-- An entailed fact has the predicate of a fact or of the consequent of a rule. -/
theorem Proper.exists_key_eq (hkb : kb.Proper) (hfacts : kb.closure = .ok facts) {f : Atom}
    (hf : f ∈ facts) : ∃ c ∈ kb.clauses, c.consequent.key = f.key := by
  have hclosed : ClosedUnder kb.rules {f | ∃ c ∈ kb.clauses, c.consequent.key = f.key} :=
    fun r hr h _ _ => ⟨r, (mem_rules.mp hr).1, (Atom.key_bind h r.consequent).symm⟩
  refine (hkb.isClosure hfacts).subset hclosed ?_ f hf
  intro g hg
  obtain ⟨c, hc, -, rfl⟩ := mem_facts.mp hg
  exact ⟨c, hc, rfl⟩

/-- Where a conjunction has an answer, every goal has a key that can match. -/
theorem Proper.couldMatch_of_exists (hkb : kb.Proper) (hfacts : kb.closure = .ok facts)
    (hgoals : ∀ g ∈ goals, g.isProper) {h : Variable → Term}
    (hmem : ∀ g ∈ goals, g.bind h ∈ facts) :
    kb.couldMatch goals = .ok true := by
  rw [hkb.couldMatch_eq hgoals]
  refine congrArg Except.ok (List.all_eq_true.mpr fun g hg => List.any_eq_true.mpr ?_)
  obtain ⟨c, hc, hkey⟩ := hkb.exists_key_eq hfacts (hmem g hg)
  refine ⟨c, hc, (Atom.key_beq_iff (Or.inr (hgoals g hg))).mpr ?_⟩
  rw [hkey, Atom.key_bind]

/-- Where a goal has a key that cannot match, a conjunction has no answers at all, so that looking
for such a goal first hides none. -/
theorem Proper.askAll_eq_answers (hkb : kb.Proper) (hfacts : kb.closure = .ok facts)
    (hgoals : ∀ g ∈ goals, g.isProper) :
    ∃ next, kb.askAll goals = .ok (answers facts goals, next) := by
  have hmatch := hkb.couldMatch_eq hgoals
  rw [KnowledgeBase.askAll, requireNames_eq_ok hgoals, ok_bind]
  cases hpossible : goals.all fun g => kb.clauses.any fun c => c.consequent.key == g.key with
  | true =>
      refine ⟨{ kb with cached := some facts }, ?_⟩
      rw [hmatch, hpossible, ok_bind, if_pos rfl, KnowledgeBase.saturated, hfacts]
      rfl
  | false =>
      have hnone : answers facts goals = [] := by
        rw [List.eq_nil_iff_forall_not_mem]
        intro a ha
        have hanswer := isAnswer_of_mem_answers (hkb.closed_closure hfacts) hgoals ha
        rw [hkb.couldMatch_of_exists hfacts hgoals hanswer.mem_facts, hpossible] at hmatch
        cases hmatch
      refine ⟨kb, ?_⟩
      rw [hmatch, hpossible, hnone]
      rfl

/-- **All answers to a conjunction are listed, and nothing else.** -/
theorem Proper.askAll_spec (hkb : kb.Proper) (hfacts : kb.closure = .ok facts)
    (hgoals : ∀ g ∈ goals, g.isProper) : ∃ found next, kb.askAll goals = .ok (found, next) ∧
      (∀ a ∈ found, IsAnswer facts goals a) ∧
      ∀ h : Variable → Term, (∀ g ∈ goals, g.bind h ∈ facts) →
        ∃ a ∈ found, ∀ g ∈ goals, ∀ x ∈ g.vars, a.value x = h x := by
  have hclosed := hkb.closed_closure hfacts
  obtain ⟨next, hask⟩ := hkb.askAll_eq_answers hfacts hgoals
  exact ⟨answers facts goals, next, hask, fun a => isAnswer_of_mem_answers hclosed hgoals,
    fun h => exists_mem_answers hclosed hgoals⟩

/-- **A conjunction has an answer exactly when some assignment turns the goals into entailed
facts.** -/
theorem Proper.ask_spec (hkb : kb.Proper) (hfacts : kb.closure = .ok facts)
    (hgoals : ∀ g ∈ goals, g.isProper) : ∃ answer next, kb.ask goals = .ok (answer, next) ∧
      (answer.isSome ↔ ∃ h : Variable → Term, ∀ g ∈ goals, g.bind h ∈ facts) := by
  have hclosed := hkb.closed_closure hfacts
  have hmatch := hkb.couldMatch_eq hgoals
  rw [KnowledgeBase.ask, requireNames_eq_ok hgoals, ok_bind]
  cases hpossible : goals.all fun g => kb.clauses.any fun c => c.consequent.key == g.key with
  | true =>
      rw [hmatch, hpossible, ok_bind, if_pos rfl]
      split
      · rw [KnowledgeBase.saturated, hfacts]
        exact ⟨_, _, rfl, firstAnswer?_isSome_iff hclosed hgoals⟩
      · -- chaining goes on until there is an answer
        have hstart : Chained kb.facts.eraseDups kb.rules [] := chained_nil_eraseDups hkb.base
        have hsaturate := hkb.closure_eq.symm.trans hfacts
        rw [closureOf, assertedFacts_eq hkb.base.closed, ok_bind] at hsaturate
        rw [← List.append_nil kb.facts.eraseDups] at hsaturate
        obtain ⟨outcome, houtcome, hiff⟩ :=
          chainUntilAnswer_spec hkb.base.rules hstart hgoals hsaturate
        rw [assertedFacts_eq hkb.base.closed, ok_bind, ← List.append_nil kb.facts.eraseDups,
          houtcome, ok_bind]
        cases outcome with
        | inl answer => exact ⟨some answer, kb, rfl, hiff⟩
        | inr known => exact ⟨none, _, rfl, hiff⟩
  | false =>
      refine ⟨none, kb, by rw [hmatch, hpossible]; rfl, iff_of_false Bool.false_ne_true ?_⟩
      rintro ⟨h, hmem⟩
      rw [hkb.couldMatch_of_exists hfacts hgoals hmem, hpossible] at hmatch
      cases hmatch

end HornPlan.KnowledgeBase
