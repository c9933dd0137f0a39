import HornPlan.Proofs.KnowledgeBases

/-!
# Forward chaining comes to an end

The loop of forward chaining does not count its rounds: it goes on until one adds nothing.  `Rounds`
is this loop without a limit, a relation between the facts known at first and those known after some
rounds.  It comes to an end for every knowledge base, whatever the antecedents of its rules are,
because the clauses are safe.

* An argument of a fact that is ever derived is a subterm of an argument of an asserted fact or of
  the consequent of a rule (`Rounds.arguments`).  A compound argument of a consequent has no
  variables, and a variable stands for a part of an argument of a fact that matched an antecedent.
* So there are finitely many facts to derive, and every round derives one of them
  (`Rounds.le_capacity`).
* The limit that `saturate` sets is never met before the end (`saturate_of_rounds`).
-/

namespace HornPlan

/-- Rounds of chaining, each of which adds a fact. -/
inductive Rounds (rules : List Clause) (start : List Atom) : Nat → List Atom → Prop
  | zero : Rounds rules start 0 start
  | succ {count : Nat} {known added : List Atom} (h : Rounds rules start count known)
      (hround : round rules known = .ok added) (hadded : added ≠ []) :
      Rounds rules start (count + 1) (known ++ added)

/-- Every argument of a fact is a subterm of an argument of an asserted fact or of the consequent of
a rule. -/
def WithinArguments (facts : List Atom) (rules : List Clause) (f : Atom) : Prop :=
  ∀ t ∈ f.args, ∃ a ∈ facts ++ rules.map (·.consequent), ∃ u ∈ a.args, t ∈ u.subterms

variable {rules : List Clause} {facts start known all : List Atom} {count limit : Nat}

/-- What chaining without a limit does in one round is what `saturate` does. -/
theorem saturate_of_round {added : List Atom} (hround : round rules known = .ok added)
    (hadded : added ≠ []) (limit : Nat) :
    saturate rules (limit + 1) known = saturate rules limit (known ++ added) := by
  rw [saturate, hround, ok_bind]
  cases added with
  | nil => exact absurd rfl hadded
  | cons f added => rfl

/-- **A limit on the rounds changes nothing unless it comes before their end.** -/
theorem saturate_of_rounds (h : Rounds rules start count known) (limit : Nat) :
    saturate rules (count + limit) start = saturate rules limit known := by
  induction h generalizing limit with
  | zero => rw [Nat.zero_add]
  | @succ count known added _ hround hadded ih =>
      calc saturate rules (count + 1 + limit) start
          = saturate rules (count + (limit + 1)) start := by rw [Nat.add_assoc, Nat.add_comm 1]
        _ = saturate rules (limit + 1) known := ih (limit + 1)
        _ = saturate rules limit (known ++ added) := saturate_of_round hround hadded limit

theorem saturate_of_round_eq_nil (hround : round rules known = .ok []) (limit : Nat) :
    saturate rules limit known = .ok known := by
  cases limit with
  | zero => rfl
  | succ limit =>
      rw [saturate, hround]
      rfl

/-- Limited chaining goes through rounds, and stops at its limit or when a round adds nothing. -/
theorem rounds_of_saturate (h : Rounds rules start count known)
    (hall : saturate rules limit known = .ok all) :
    ∃ more, Rounds rules start (count + more) all ∧ (more = limit ∨ round rules all = .ok []) := by
  induction limit generalizing count known with
  | zero =>
      obtain rfl := Except.ok.inj hall
      exact ⟨0, h, Or.inl rfl⟩
  | succ limit ih =>
      obtain ⟨added, hround, hrest⟩ := bind_eq_ok.mp hall
      by_cases hadded : added = []
      · subst hadded
        obtain rfl := Except.ok.inj hrest
        exact ⟨0, h, Or.inr hround⟩
      · rw [saturate_of_round hround hadded] at hall
        obtain ⟨more, hrounds, hend⟩ := ih (h.succ hround hadded) hall
        refine ⟨more + 1, ?_, hend.imp_left (congrArg Nat.succ)⟩
        rwa [Nat.add_assoc, Nat.add_comm 1] at hrounds

/-! ## What the rounds keep -/

section

variable (hbase : Base facts rules)

include hbase

/-- The facts that rounds add are derived one from the other, and there are at least as many as
rounds. -/
theorem Rounds.chained (h : Rounds (renamedRules rules) facts.eraseDups count known) :
    ∃ derived, known = facts.eraseDups ++ derived ∧ Chained facts.eraseDups rules derived ∧
      count ≤ derived.length := by
  induction h with
  | zero => exact ⟨[], (List.append_nil _).symm, chained_nil_eraseDups hbase, Nat.le_refl 0⟩
  | @succ count known added _ hround hadded ih =>
      obtain ⟨derived, rfl, hchained, hcount⟩ := ih
      obtain rfl : newFacts (renamedRules rules) (facts.eraseDups ++ derived) = added :=
        Except.ok.inj ((round_eq hbase.rules _).symm.trans hround)
      refine ⟨_, List.append_assoc _ _ _, hchained.append_newFacts hbase.rules, ?_⟩
      have hpositive := List.length_pos_iff.mpr hadded
      rw [List.length_append]
      omega

/-- A round derives a fact, and there are at most `capacity` to derive. -/
theorem Rounds.le_capacity (h : Rounds (renamedRules rules) facts.eraseDups count known) :
    count ≤ capacity facts rules ∧ known.length ≤ facts.length + capacity facts rules := by
  obtain ⟨derived, rfl, hchained, hcount⟩ := h.chained hbase
  have hderived := hchained.length_le hbase
  have hasserted : facts.eraseDups.length ≤ facts.length :=
    length_le_of_nodup_of_subset (nodup_eraseDups facts) fun _ => mem_of_mem_eraseDups
  rw [List.length_append]
  omega

theorem Chained.withinArguments {derived : List Atom} (h : Chained facts.eraseDups rules derived) :
    ∀ f ∈ facts.eraseDups ++ derived, WithinArguments facts rules f := by
  have hclosed : ClosedUnder rules {f | WithinArguments facts rules f} := by
    have hterms := closedUnder_argumentTerms hbase
    simp only [mem_argumentTerms hbase] at hterms
    exact hterms
  refine h.subset hclosed ?_
  intro f hf t ht
  exact ⟨f, List.mem_append_left _ (mem_of_mem_eraseDups hf), t, ht, Term.mem_subterms_self t⟩

/-- **No argument is made up**: neither by the facts known after some rounds nor by what a rule
concludes from them, be it new or known already. -/
theorem Rounds.arguments (h : Rounds (renamedRules rules) facts.eraseDups count known) :
    ∀ f ∈ known ++ (renamedRules rules).flatMap (·.conclusions known),
    WithinArguments facts rules f := by
  obtain ⟨derived, rfl, hchained, -⟩ := h.chained hbase
  have hknown := hchained.withinArguments hbase
  intro f hf
  rcases List.mem_append.mp hf with hf | hf
  · exact hknown f hf
  · by_cases hmem : f ∈ facts.eraseDups ++ derived
    · exact hknown f hmem
    · have hderives := (mem_flatMap_conclusions hbase.rules hchained.closed).mp hf
      have hnew := (mem_newFacts hbase.rules hchained.closed).mpr ⟨hmem, hderives⟩
      refine (hchained.append_newFacts hbase.rules).withinArguments hbase f ?_
      rw [← List.append_assoc]
      exact List.mem_append_right _ hnew

theorem exists_rounds : ∃ count all, Rounds (renamedRules rules) facts.eraseDups count all ∧
    round (renamedRules rules) all = .ok [] := by
  obtain ⟨derived, hsaturate, -⟩ :=
    saturate_spec hbase.rules (chained_nil_eraseDups hbase) (capacity facts rules + 1)
  rw [List.append_nil] at hsaturate
  obtain ⟨more, hrounds, hend⟩ := rounds_of_saturate .zero hsaturate
  rw [Nat.zero_add] at hrounds
  refine ⟨more, _, hrounds, hend.resolve_left ?_⟩
  have hmore := (hrounds.le_capacity hbase).1
  omega

end

namespace KnowledgeBase

theorem base_of_isProper {kb : KnowledgeBase} (hproper : ∀ c ∈ kb.clauses, c.isProper) :
    Base kb.facts kb.rules := by
  have hemptied : Proper { kb with cached := none } := ⟨hproper, fun _ h => nomatch h⟩
  exact hemptied.base

/-- **Forward chaining comes to an end for every knowledge base.**  No round fails, and there are at
most `capacity` rounds that add something.  After each of them every argument of a fact, and of
whatever the rules conclude next, is a subterm of an argument of an asserted fact or of a
consequent.  After finitely many rounds one adds nothing; the facts known by then are finitely many,
and they are the closure, which is also what chaining finds under any limit on its rounds that is
not smaller. -/
theorem chaining_terminates (kb : KnowledgeBase) (hproper : ∀ c ∈ kb.clauses, c.isProper) :
    ∃ start, assertedFacts kb.facts = .ok start ∧
      (∀ count known, Rounds (renamedRules kb.rules) start count known →
        count ≤ capacity kb.facts kb.rules ∧
        (∃ added, round (renamedRules kb.rules) known = .ok added) ∧
        ∀ f ∈ known ++ (renamedRules kb.rules).flatMap (·.conclusions known),
          WithinArguments kb.facts kb.rules f) ∧
      ∃ count all, Rounds (renamedRules kb.rules) start count all ∧
        round (renamedRules kb.rules) all = .ok [] ∧
        all.length ≤ kb.facts.length + capacity kb.facts kb.rules ∧
        closureOf kb.facts kb.rules = .ok all ∧
        ∀ limit, count ≤ limit → saturate (renamedRules kb.rules) limit start = .ok all := by
  have hbase := base_of_isProper hproper
  have hstart : assertedFacts kb.facts = .ok kb.facts.eraseDups := assertedFacts_eq hbase.closed
  obtain ⟨count, all, hrounds, hend⟩ := exists_rounds hbase
  obtain ⟨hcount, hlength⟩ := hrounds.le_capacity hbase
  -- rounds after the last one that adds a fact change nothing
  have hlimit : ∀ limit, count ≤ limit →
      saturate (renamedRules kb.rules) limit kb.facts.eraseDups = .ok all := by
    intro limit hle
    obtain ⟨rest, rfl⟩ := Nat.exists_eq_add_of_le hle
    rw [saturate_of_rounds hrounds, saturate_of_round_eq_nil hend]
  refine ⟨_, hstart, ?_, count, all, hrounds, hend, hlength, ?_, hlimit⟩
  · intro count known h
    exact ⟨(h.le_capacity hbase).1, ⟨_, round_eq hbase.rules known⟩, h.arguments hbase⟩
  · rw [closureOf, hstart, ok_bind]
    exact hlimit _ (Nat.le_succ_of_le hcount)

/-- A pair that is kept, of a pair and a constant, and that with a pair its parts are kept. -/
def pairs : List Clause :=
  let kept (t : Term) : Atom := ⟨.text "Kept" (by decide), [t]⟩
  let pair (s t : Term) : Term := .app (.text "Pair" (by decide)) [s, t]
  let left : Term := .var ⟨"left", by decide⟩
  let right : Term := .var ⟨"right", by decide⟩
  let cup : Term := .const ⟨"Cup", by decide, by decide⟩
  let saucer : Term := .const ⟨"Saucer", by decide, by decide⟩
  [.ofAtom (kept (pair (pair cup saucer) cup)), ⟨[kept (pair left right)], kept left⟩,
   ⟨[kept (pair left right)], kept right⟩]

theorem chaining_terminates_of_pairs :
    ∃ kb, ofClauses pairs = .ok kb ∧ (∀ c ∈ kb.clauses, c.isProper) ∧
    ∃ start count all, assertedFacts kb.facts = .ok start ∧
      Rounds (renamedRules kb.rules) start count all ∧ round (renamedRules kb.rules) all = .ok [] ∧
      (∀ f ∈ all, WithinArguments kb.facts kb.rules f) ∧ closureOf kb.facts kb.rules = .ok all := by
  obtain ⟨kb, hkb⟩ : ∃ kb, ofClauses pairs = .ok kb := ⟨_, rfl⟩
  have hproper : ∀ c ∈ kb.clauses, c.isProper := by
    cases hkb
    decide
  obtain ⟨start, hstart, hstages, count, all, hrounds, hend, -, hclosure, -⟩ :=
    kb.chaining_terminates hproper
  refine ⟨kb, hkb, hproper, start, count, all, hstart, hrounds, hend, ?_, hclosure⟩
  exact fun f hf => (hstages count all hrounds).2.2 f (List.mem_append_left _ hf)

end KnowledgeBase

end HornPlan
