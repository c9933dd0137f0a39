import HornPlan.Proofs.Failures

/-!
# The cache of a knowledge base is never stale

A knowledge base is told clauses, has them retracted and answers queries, in any order (`Call`).  A
clause may be refused, a clause to be retracted may not be there, and a query may fail; then nothing
changes (`perform`).

Two things hold after every sequence of calls (`Coherent`): every clause would be accepted again,
and what is cached is what chaining finds from the clauses.  Telling and retracting empty the cache,
and a query either leaves it alone or fills it with the closure (`Filled`), whichever of its two
ways it goes.

* With a closure at hand, `askAll` and `ask` read their answers off it (`map_fst_askAll`,
  `map_fst_ask`).  For `ask` this is an argument about order.  It may stop after a few rounds of
  chaining, but the facts known by then are the first of those known at the end
  (`prefix_of_saturate`), and a single goal finds the same first match among them
  (`firstAnswer?_extend`).  A conjunction need not, and is not asked before the end.
* So the answers are those of a new knowledge base of the same clauses, and the answer of `ask` is
  the first of those of `askAll` (`performAll_answers_afresh`).
-/

namespace HornPlan

/-! ## The first answer -/

variable {known more all goals : List Atom}

theorem candidates_append (goal : Atom) (known more : List Atom) :
    goal.candidates (known ++ more) = goal.candidates known ++ goal.candidates more :=
  List.filter_append ..

theorem head?_eraseDups {α : Type} [BEq α] (l : List α) : l.eraseDups.head? = l.head? := by
  cases l with
  | nil => rfl
  | cons a l => rw [List.eraseDups_cons, List.head?_cons, List.head?_cons]

theorem firstAnswer?_eq_head? (facts goals : List Atom) :
    firstAnswer? facts goals = (answers facts goals).head? := by
  rw [firstAnswer?, firstMatch?_eq_head?, answers_eq_eraseDups, head?_eraseDups, List.head?_map]

theorem firstMatch?_singleton (facts : List Atom) (goal : Atom) (σ : Substitution) :
    firstMatch? facts [goal] σ = (goal.candidates facts).findSome? (σ.unifyAtoms? goal) := by
  rw [firstMatch?]
  congr 1
  funext f
  cases σ.unifyAtoms? goal f <;> rfl

/-- What answers a single goal first still does when more facts come after the known ones.  The
second goal of a conjunction may find a match among them that comes before those found so far. -/
theorem firstAnswer?_extend (hshort : goals.length ≤ 1) (hinitial : known <+: all)
    {answer : Substitution} (h : firstAnswer? known goals = some answer) :
    firstAnswer? all goals = some answer := by
  obtain ⟨more, rfl⟩ := hinitial
  match goals with
  | [] => exact h
  | [goal] =>
      obtain ⟨θ, hθ, rfl⟩ := Option.map_eq_some_iff.mp h
      rw [firstMatch?_singleton] at hθ
      rw [firstAnswer?, firstMatch?_singleton, candidates_append, List.findSome?_append, hθ,
        Option.some_or, Option.map_some]
  | _ :: _ :: _ =>
      simp only [List.length_cons] at hshort
      omega

theorem prefix_of_saturate {rules : List Clause} {rounds : Nat}
    (h : saturate rules rounds known = .ok all) : known <+: all := by
  induction rounds generalizing known with
  | zero =>
      obtain rfl := Except.ok.inj h
      exact List.prefix_refl _
  | succ rounds ih =>
      obtain ⟨added, -, h⟩ := bind_eq_ok.mp h
      cases added with
      | nil =>
          obtain rfl := Except.ok.inj h
          exact List.prefix_refl _
      | cons f added => exact (List.prefix_append known (f :: added)).trans (ih h)

/-- **An answer found on the way is the first answer at the end.** -/
theorem chainUntilAnswer_of_saturate (hshort : goals.length ≤ 1) {rules : List Clause}
    {rounds : Nat} (h : saturate rules rounds known = .ok all) :
    ∃ outcome, chainUntilAnswer rules goals rounds known = .ok outcome ∧
      outcome.getLeft? = firstAnswer? all goals := by
  -- an answer from what is known so far stays the first one, however much is derived after it
  induction rounds generalizing known with
  | zero =>
      obtain rfl := Except.ok.inj h
      cases hfirst : firstAnswer? known goals with
      | some answer => exact ⟨_, chainUntilAnswer_of_firstAnswer? hfirst 0, rfl⟩
      | none => exact ⟨.inr known, by simp only [chainUntilAnswer, hfirst], rfl⟩
  | succ rounds ih =>
      cases hfirst : firstAnswer? known goals with
      | some answer =>
          refine ⟨_, chainUntilAnswer_of_firstAnswer? hfirst _, ?_⟩
          exact (firstAnswer?_extend hshort (prefix_of_saturate h) hfirst).symm
      | none =>
          obtain ⟨added, hround, h⟩ := bind_eq_ok.mp h
          simp only [chainUntilAnswer, hfirst, hround, ok_bind]
          cases added with
          | nil =>
              obtain rfl := Except.ok.inj h
              exact ⟨.inr known, rfl, hfirst.symm⟩
          | cons f added => exact ih h

namespace KnowledgeBase

variable {kb next fresh : KnowledgeBase} {facts : List Atom}

/-! ## Answers read off the closure -/

/-- The cache is left alone or filled with the closure. -/
def Filled (kb next : KnowledgeBase) : Prop :=
  next = kb ∨ ∃ facts, kb.closure = .ok facts ∧ next = { kb with cached := some facts }

theorem saturated_eq_ok :
    kb.saturated = .ok (facts, next) ↔ kb.closure = .ok facts ∧
    next = { kb with cached := some facts } := by
  rw [saturated, bind_eq_ok]
  constructor
  · rintro ⟨_, hfacts, h⟩
    obtain ⟨rfl, rfl⟩ := Prod.mk.inj (Except.ok.inj h)
    exact ⟨hfacts, rfl⟩
  · rintro ⟨hfacts, rfl⟩
    exact ⟨facts, hfacts, rfl⟩

theorem closure_of_cached_eq_none (h : kb.cached = none) :
    kb.closure = closureOf kb.facts kb.rules := by
  rw [closure, h]

theorem not_consults_iff :
    ¬(kb.cached.isSome || decide (goals.length > 1)) = true ↔ kb.cached = none ∧
    goals.length ≤ 1 := by
  simp

theorem filled_of_askAll {found : List Substitution} (h : kb.askAll goals = .ok (found, next)) :
    Filled kb next := by
  obtain ⟨_, -, h⟩ := bind_eq_ok.mp h
  obtain ⟨possible, -, h⟩ := bind_eq_ok.mp h
  cases possible with
  | true =>
      obtain ⟨⟨facts, filled⟩, hfilled, h⟩ := bind_eq_ok.mp h
      cases h
      exact Or.inr ⟨facts, saturated_eq_ok.mp hfilled⟩
  | false =>
      cases h
      exact Or.inl rfl

theorem filled_of_ask {answer : Option Substitution} (h : kb.ask goals = .ok (answer, next)) :
    Filled kb next := by
  obtain ⟨_, -, h⟩ := bind_eq_ok.mp h
  obtain ⟨possible, -, h⟩ := bind_eq_ok.mp h
  cases possible with
  | true =>
      rw [if_pos rfl] at h
      split at h
      · obtain ⟨⟨facts, filled⟩, hfilled, h⟩ := bind_eq_ok.mp h
        cases h
        exact Or.inr ⟨facts, saturated_eq_ok.mp hfilled⟩
      · rename_i hchain
        obtain ⟨start, hstart, h⟩ := bind_eq_ok.mp h
        obtain ⟨outcome, houtcome, h⟩ := bind_eq_ok.mp h
        cases outcome with
        | inl _ =>
            cases h
            exact Or.inl rfl
        | inr known =>
            -- no round gave an answer, so chaining has come to its end
            cases h
            refine Or.inr ⟨known, ?_, rfl⟩
            rw [closure_of_cached_eq_none (not_consults_iff.mp hchain).1, closureOf,
              hstart, ok_bind]
            exact saturate_of_chainUntilAnswer houtcome
  | false =>
      cases h
      exact Or.inl rfl

theorem map_fst_askAll (hfacts : kb.closure = .ok facts) (goals : List Atom) :
    (kb.askAll goals).map Prod.fst = (do
      requireNames goals
      return if ← kb.couldMatch goals then answers facts goals else []) := by
  rw [askAll, saturated, hfacts]
  cases requireNames goals with
  | error e => rfl
  | ok _ =>
      cases kb.couldMatch goals with
      | error e => rfl
      | ok possible => cases possible <;> rfl

theorem map_fst_ask (hfacts : kb.closure = .ok facts) (goals : List Atom) :
    (kb.ask goals).map Prod.fst = (do
      requireNames goals
      return if ← kb.couldMatch goals then firstAnswer? facts goals else none) := by
  rw [ask]
  cases requireNames goals with
  | error e => rfl
  | ok _ =>
      rw [ok_bind, ok_bind]
      cases kb.couldMatch goals with
      | error e => rfl
      | ok possible =>
          rw [ok_bind, ok_bind]
          cases possible with
          | false => rfl
          | true =>
              rw [if_pos rfl]
              -- the closure is consulted where it is cached or a conjunction is asked for; else
              -- chaining stops at the first answer
              split
              · rw [saturated, hfacts]
                rfl
              · rename_i hchain
                obtain ⟨hcached, hshort⟩ := not_consults_iff.mp hchain
                rw [closure_of_cached_eq_none hcached] at hfacts
                obtain ⟨start, hstart, hsaturate⟩ := bind_eq_ok.mp hfacts
                obtain ⟨outcome, houtcome, hanswer⟩ := chainUntilAnswer_of_saturate hshort hsaturate
                rw [hstart, ok_bind, houtcome, ok_bind, if_pos rfl, ← hanswer]
                cases outcome <;> rfl

theorem exists_of_map_fst {α : Type} {call : Except Error (α × KnowledgeBase)} {a : α}
    (h : call.map Prod.fst = .ok a) : ∃ next, call = .ok (a, next) := by
  cases call with
  | error e => cases h
  | ok outcome =>
      obtain rfl := Except.ok.inj h
      exact ⟨outcome.2, rfl⟩

/-- **`ask` gives the first of the answers that `askAll` lists**, and no answer where it lists
none. -/
theorem ask_eq_head? {found : List Substitution} (h : kb.askAll goals = .ok (found, next)) :
    ∃ after, kb.ask goals = .ok (found.head?, after) := by
  obtain ⟨_, hnames, h⟩ := bind_eq_ok.mp h
  obtain ⟨possible, hpossible, h⟩ := bind_eq_ok.mp h
  cases possible with
  | true =>
      obtain ⟨⟨facts, filled⟩, hfilled, h⟩ := bind_eq_ok.mp h
      obtain ⟨rfl, -⟩ := Prod.mk.inj (Except.ok.inj h)
      refine exists_of_map_fst ?_
      rw [map_fst_ask (saturated_eq_ok.mp hfilled).1, hnames, ok_bind, hpossible,
        ok_bind, if_pos rfl, firstAnswer?_eq_head?]
      rfl
  | false =>
      -- some goal has a predicate that no clause concludes, which both look at first
      obtain ⟨rfl, -⟩ := Prod.mk.inj (Except.ok.inj h)
      refine ⟨kb, ?_⟩
      rw [ask, hnames, ok_bind, hpossible, ok_bind]
      rfl

/-! ## Calls -/

/-- A call of a knowledge base, with what is handed over. -/
inductive Call
  | tell (statement : Statement)
  | retract (statement : Statement)
  | ask (query : Query)
  | askAll (query : Query)
  | closure

/-- What becomes of a knowledge base by a call.  A call that fails has no outcome. -/
def outcome (kb : KnowledgeBase) : Call → Except Error KnowledgeBase
  | .tell statement => do kb.tell (← statement.clause?)
  | .retract statement => do return (kb.retract (← statement.clause?)).2
  | .ask query => do return (← kb.ask (← query.goals?)).2
  | .askAll query => do return (← kb.askAll (← query.goals?)).2
  | .closure => do return (← kb.saturated).2

/-- A call that returns has told a clause, or retracted one, or at most filled the cache. -/
theorem outcome_cases {call : Call} (h : kb.outcome call = .ok next) :
    (∃ statement c, call = .tell statement ∧ statement.clause? = .ok c ∧ kb.tell c = .ok next) ∨
      (∃ c, next = (kb.retract c).2) ∨ Filled kb next := by
  cases call with
  | tell statement =>
      obtain ⟨c, hc, htell⟩ := bind_eq_ok.mp h
      exact Or.inl ⟨statement, c, rfl, hc, htell⟩
  | retract statement =>
      obtain ⟨c, -, hretract⟩ := bind_eq_ok.mp h
      cases hretract
      exact Or.inr (Or.inl ⟨c, rfl⟩)
  | ask query =>
      obtain ⟨goals, -, h⟩ := bind_eq_ok.mp h
      obtain ⟨⟨answer, after⟩, hask, h⟩ := bind_eq_ok.mp h
      cases h
      exact Or.inr (Or.inr (filled_of_ask hask))
  | askAll query =>
      obtain ⟨goals, -, h⟩ := bind_eq_ok.mp h
      obtain ⟨⟨found, after⟩, hask, h⟩ := bind_eq_ok.mp h
      cases h
      exact Or.inr (Or.inr (filled_of_askAll hask))
  | closure =>
      obtain ⟨⟨facts, after⟩, hsaturated, h⟩ := bind_eq_ok.mp h
      cases h
      exact Or.inr (Or.inr (Or.inr ⟨facts, saturated_eq_ok.mp hsaturated⟩))

/-- The knowledge base after a call.  A call that fails leaves it as it is. -/
def perform (kb : KnowledgeBase) (call : Call) : KnowledgeBase :=
  match kb.outcome call with
  | .ok next => next
  | .error _ => kb

/-- The knowledge base after a sequence of calls, beginning with an empty one. -/
def performAll (calls : List Call) : KnowledgeBase :=
  calls.foldl perform empty

/-- What calls leave behind: every clause would be accepted again, and what is cached is what
chaining finds from the clauses. -/
structure Coherent (kb : KnowledgeBase) : Prop where
  accepted : ∀ c ∈ kb.clauses, c.refusal? = none
  cached : ∀ facts, kb.cached = some facts → closureOf kb.facts kb.rules = .ok facts

theorem coherent_empty : empty.Coherent :=
  ⟨fun _ h => absurd h List.not_mem_nil, fun _ h => nomatch h⟩

theorem Coherent.closure_eq (h : kb.Coherent) : kb.closure = closureOf kb.facts kb.rules := by
  cases hcached : kb.cached with
  | none => exact closure_of_cached_eq_none hcached
  | some facts => rw [closure, hcached, h.cached facts hcached]

theorem tell_eq_ok {c : Clause} (h : kb.tell c = .ok next) :
    c.refusal? = none ∧ next.clauses = kb.clauses ++ [c] ∧ next.cached = none := by
  unfold tell at h
  split at h
  · rename_i haccepted
    cases h
    exact ⟨haccepted, rfl, rfl⟩
  · cases h

theorem Coherent.tell (h : kb.Coherent) {c : Clause} (htell : kb.tell c = .ok next) :
    next.Coherent := by
  obtain ⟨hc, hclauses, hcached⟩ := tell_eq_ok htell
  refine ⟨?_, fun facts hsome => by rw [hcached] at hsome; cases hsome⟩
  intro d hd
  rw [hclauses] at hd
  rcases List.mem_append.mp hd with hd | hd
  · exact h.accepted d hd
  · exact List.mem_singleton.mp hd ▸ hc

theorem Coherent.retract (h : kb.Coherent) (c : Clause) : (kb.retract c).2.Coherent := by
  unfold KnowledgeBase.retract
  split
  · exact ⟨fun d hd => h.accepted d (List.mem_of_mem_erase hd), fun _ h => by cases h⟩
  · exact h

theorem Coherent.filled (h : kb.Coherent) (hnext : Filled kb next) : next.Coherent := by
  rcases hnext with rfl | ⟨facts, hfacts, rfl⟩
  · exact h
  · refine ⟨h.accepted, fun cached hcached => ?_⟩
    obtain rfl := Option.some.inj hcached
    exact h.closure_eq.symm.trans hfacts

theorem Coherent.outcome (h : kb.Coherent) {call : Call} (hnext : kb.outcome call = .ok next) :
    next.Coherent := by
  rcases outcome_cases hnext with ⟨statement, c, -, -, htell⟩ | ⟨c, rfl⟩ | hfilled
  · exact h.tell htell
  · exact h.retract c
  · exact h.filled hfilled

theorem Coherent.perform (h : kb.Coherent) (call : Call) : (kb.perform call).Coherent := by
  unfold KnowledgeBase.perform
  split
  · rename_i hnext
    exact h.outcome hnext
  · exact h

/-- **The cache is never stale**, whatever has been called. -/
theorem coherent_performAll (calls : List Call) : (performAll calls).Coherent := by
  have hfold :
      ∀ kb : KnowledgeBase, kb.Coherent → (calls.foldl KnowledgeBase.perform kb).Coherent := by
    induction calls with
    | nil => exact fun _ h => h
    | cons call calls ih => exact fun kb h => ih _ (h.perform call)
  exact hfold empty coherent_empty

/-! ## A new knowledge base of the same clauses -/

theorem exists_foldlM_tell_of_accepted {clauses : List Clause}
    (haccepted : ∀ c ∈ clauses, c.refusal? = none) (hcached : kb.cached = none) :
    ∃ fresh, clauses.foldlM KnowledgeBase.tell kb = .ok fresh ∧
      fresh.clauses = kb.clauses ++ clauses ∧ fresh.cached = none := by
  induction clauses generalizing kb with
  | nil => exact ⟨kb, rfl, (List.append_nil _).symm, hcached⟩
  | cons c clauses ih =>
      obtain ⟨hc, hrest⟩ := List.forall_mem_cons.mp haccepted
      obtain ⟨told, htold⟩ : ∃ told, kb.tell c = .ok told := by
        unfold KnowledgeBase.tell
        split
        · exact ⟨_, rfl⟩
        · rename_i hrefused
          cases hc.symm.trans hrefused
      obtain ⟨-, hclauses, hnone⟩ := tell_eq_ok htold
      obtain ⟨fresh, hfresh, hmore, hfreshnone⟩ := ih hrest hnone
      refine ⟨fresh, ?_, ?_, hfreshnone⟩
      · rw [List.foldlM_cons, htold, ok_bind]
        exact hfresh
      · rw [hmore, hclauses, List.append_assoc, List.singleton_append]

theorem Coherent.exists_ofClauses (h : kb.Coherent) :
    ∃ fresh, ofClauses kb.clauses = .ok fresh ∧ fresh.clauses = kb.clauses ∧ fresh.cached = none :=
  exists_foldlM_tell_of_accepted h.accepted rfl

theorem eq_of_clauses_eq (hclauses : kb.clauses = fresh.clauses)
    (hcached : kb.cached = fresh.cached) :
    kb = fresh := by
  cases kb
  cases fresh
  cases hclauses
  cases hcached
  rfl

theorem couldMatch_congr (hclauses : kb.clauses = fresh.clauses) (goals : List Atom) :
    kb.couldMatch goals = fresh.couldMatch goals := by
  rw [couldMatch, couldMatch, hclauses]

/-- A knowledge base answers as a new one of the same clauses does, and what it has cached is what
the new one finds. -/
structure AnswersAs (kb fresh : KnowledgeBase) : Prop where
  clauses : fresh.clauses = kb.clauses
  new : fresh.cached = none
  cached : kb.cached = none ∨ ∃ facts, kb.cached = some facts ∧ fresh.closure = .ok facts
  closure : kb.closure = fresh.closure
  ask : ∀ goals, (kb.ask goals).map Prod.fst = (fresh.ask goals).map Prod.fst
  askAll : ∀ goals, (kb.askAll goals).map Prod.fst = (fresh.askAll goals).map Prod.fst

/-- Answers do not depend on whether the closure is at hand. -/
theorem Coherent.answersAs (h : kb.Coherent) (hclauses : fresh.clauses = kb.clauses)
    (hnew : fresh.cached = none) : AnswersAs kb fresh := by
  cases hcached : kb.cached with
  | none =>
      obtain rfl : fresh = kb := eq_of_clauses_eq hclauses (hnew.trans hcached.symm)
      exact ⟨rfl, hnew, Or.inl hnew, rfl, fun _ => rfl, fun _ => rfl⟩
  | some facts =>
      have hfacts : kb.closure = .ok facts := by rw [KnowledgeBase.closure, hcached]
      have hfresh : fresh.closure = .ok facts := by
        rw [closure_of_cached_eq_none hnew, KnowledgeBase.facts, KnowledgeBase.rules, hclauses]
        exact h.cached facts hcached
      refine ⟨hclauses, hnew, Or.inr ⟨facts, hcached, hfresh⟩, hfacts.trans hfresh.symm, ?_, ?_⟩
      · intro goals
        rw [map_fst_ask hfacts, map_fst_ask hfresh, couldMatch_congr hclauses]
      · intro goals
        rw [map_fst_askAll hfacts, map_fst_askAll hfresh, couldMatch_congr hclauses]

/-- **After any sequence of calls a knowledge base answers as a new one of the same clauses does,
and `ask` gives the first of the answers that `askAll` lists.**  Where the clauses are proper, every
proper query has an answer. -/
theorem performAll_answers_afresh (calls : List Call) :
    ∃ fresh, ofClauses (performAll calls).clauses = .ok fresh ∧ AnswersAs (performAll calls) fresh ∧
      (∀ goals found next, (performAll calls).askAll goals = .ok (found, next) →
        ∃ after, (performAll calls).ask goals = .ok (found.head?, after)) ∧
      ((∀ c ∈ (performAll calls).clauses, c.isProper) →
        (∃ facts, (performAll calls).closure = .ok facts) ∧
          ∀ goals : List Atom, (∀ g ∈ goals, g.isProper) →
            ∃ found next, (performAll calls).askAll goals = .ok (found, next)) := by
  have hcoherent := coherent_performAll calls
  obtain ⟨fresh, hfresh, hclauses, hnew⟩ := hcoherent.exists_ofClauses
  refine ⟨fresh, hfresh, hcoherent.answersAs hclauses hnew, fun _ _ _ => ask_eq_head?, ?_⟩
  intro hproper
  have hkb : (performAll calls).Proper := ⟨hproper, hcoherent.cached⟩
  obtain ⟨facts, hfacts, -⟩ := hkb.exists_closure
  refine ⟨⟨facts, hfacts⟩, fun goals hgoals => ?_⟩
  obtain ⟨next, hask⟩ := hkb.askAll_eq_answers hfacts hgoals
  exact ⟨answers facts goals, next, hask⟩

/-- The two roads are told, and those that lead anywhere are refused.  Between the queries the rule
is told, and one of the roads retracted twice. -/
def roadworks : List Call :=
  let ask : Call := .askAll (.all (detour.map Atom.toTerm))
  (roads.take 2).map (fun c => .tell (.inl c)) ++ detour.map (fun g => .tell (.inr g.toTerm)) ++
  [ask]
    ++ (roads.drop 2).map (fun c => .tell (.inl c)) ++ detour.map (fun g => .ask (.one g.toTerm)) ++
    [ask]
    ++ (roads.take 1).flatMap (fun c => [.retract (.inl c), .retract (.inl c)]) ++ [.closure]

theorem answers_afresh_of_roadworks : (∀ c ∈ (performAll roadworks).clauses, c.isProper) ∧
    (∀ g ∈ detour, g.isProper) ∧ (performAll roadworks).cached.isSome ∧
    (∃ fresh, ofClauses (performAll roadworks).clauses = .ok fresh ∧
      AnswersAs (performAll roadworks) fresh) ∧
    ∃ found next after, (performAll roadworks).askAll detour = .ok (found, next) ∧
      (performAll roadworks).ask detour = .ok (found.head?, after) := by
  have hclauses : ∀ c ∈ (performAll roadworks).clauses, c.isProper := by decide +kernel
  have hgoals : ∀ g ∈ detour, g.isProper := by decide
  have hcached : (performAll roadworks).cached.isSome := by decide +kernel
  obtain ⟨fresh, hfresh, hanswers, hfirst, hreturns⟩ := performAll_answers_afresh roadworks
  obtain ⟨found, next, hfound⟩ := (hreturns hclauses).2 detour hgoals
  obtain ⟨after, hafter⟩ := hfirst detour found next hfound
  exact ⟨hclauses, hgoals, hcached, ⟨fresh, hfresh, hanswers⟩, found, next, after, hfound, hafter⟩

end KnowledgeBase

end HornPlan
