import HornPlan.Proofs.Equations
import HornPlan.Proofs.Instances
import HornPlan.Proofs.KnowledgeBases

/-!
# Matching goals is a join

What `satisfy` lists is determined by the lists of facts that it looks through, one for each goal.
Without the unifier the same answers come from choosing a fact for every goal in all ways
(`choices`) and keeping the choices that some assignment turns the goals into.

* `satisfy_rows`: the facts that become of the goals, extension by extension, are these choices in
  their order.  The induction is on the goals, and the bindings made so far are part of the
  statement: an assignment has to solve them as well.
* `pairwise_choices`: choices come in the lexicographic order of positions, so where no list has a
  repetition, no choice occurs twice.
* `trySatisfy_eq`: the checked search reads each goal under the bindings before it unifies, and
  finds the same extensions.  The two unifications differ in the budget only, and every budget that
  is large enough gives the same outcome (`solve_eq_of_le`).

Facts are looked up in a `FactIndex`, which keeps those of one predicate and number of arguments
together.  `FactIndex.satisfy_spec` is the outcome for it.
-/

namespace HornPlan

/-! ## Choosing one member of each list -/

section

variable {α : Type}

/-- All ways to choose a member of each list.  The choice from the first list changes last. -/
def choices : List (List α) → List (List α)
  | [] => [[]]
  | l :: lists => l.flatMap fun a => (choices lists).map (a :: ·)

theorem mem_choices {lists : List (List α)} {as : List α} :
    as ∈ choices lists ↔ List.Forall₂ (· ∈ ·) as lists := by
  induction lists generalizing as with
  | nil => simp [choices]
  | cons l lists ih =>
      simp only [choices, List.mem_flatMap, List.mem_map, List.forall₂_cons_right_iff, ih]
      constructor
      · rintro ⟨a, ha, bs, hbs, rfl⟩
        exact ⟨a, bs, ha, hbs, rfl⟩
      · rintro ⟨a, bs, ha, hbs, rfl⟩
        exact ⟨a, ha, bs, hbs, rfl⟩

variable [BEq α]

/-- Where the members of a choice stand in their lists. -/
def places (lists : List (List α)) (as : List α) : List Nat :=
  List.zipWith (fun l a => l.idxOf a) lists as

theorem pairwise_idxOf {l : List α} (hlawful : ∀ a ∈ l, ∀ b ∈ l, a == b ↔ a = b)
    (hnodup : l.Nodup) :
    l.Pairwise fun a b => l.idxOf a < l.idxOf b := by
  induction l with
  | nil => exact List.Pairwise.nil
  | cons a l ih =>
      have hfirst : ∀ b ∈ a :: l, (a == b) = true ↔ a = b := hlawful a List.mem_cons_self
      have hlater : ∀ b ∈ l, (a :: l).idxOf b = l.idxOf b + 1 := by
        intro b hb
        have hne : (a == b) = false := by
          rw [Bool.eq_false_iff, ne_eq, hfirst b (List.mem_cons_of_mem _ hb)]
          rintro rfl
          exact (List.nodup_cons.mp hnodup).1 hb
        rw [List.idxOf_cons, hne]
        rfl
      have hzero : (a :: l).idxOf a = 0 := by
        rw [List.idxOf_cons, (hfirst a List.mem_cons_self).mpr rfl]
        rfl
      refine List.pairwise_cons.mpr ⟨fun b hb => ?_, ?_⟩
      · rw [hzero, hlater b hb]
        omega
      · have hrest := ih (fun b hb c hc => hlawful b (List.mem_cons_of_mem _ hb) c
          (List.mem_cons_of_mem _ hc)) (List.nodup_cons.mp hnodup).2
        refine hrest.imp_of_mem fun {b c} hb hc hbc => ?_
        rw [hlater b hb, hlater c hc]
        omega

/-- Choices come in the lexicographic order of positions. -/
theorem pairwise_choices {lists : List (List α)}
    (hlists : ∀ l ∈ lists, l.Pairwise fun a b => l.idxOf a < l.idxOf b) :
    (choices lists).Pairwise fun as bs => List.Lex (· < ·) (places lists as) (places lists bs) := by
  induction lists with
  | nil => exact List.pairwise_singleton _ _
  | cons l lists ih =>
      obtain ⟨hl, hrest⟩ := List.forall_mem_cons.mp hlists
      rw [choices, List.pairwise_flatMap]
      constructor
      · -- the same first member: the rest decides
        intro a _
        exact List.pairwise_map.mpr ((ih hrest).imp fun hlex => List.Lex.cons hlex)
      · refine hl.imp fun hab as has bs hbs => ?_
        obtain ⟨as, -, rfl⟩ := List.mem_map.mp has
        obtain ⟨bs, -, rfl⟩ := List.mem_map.mp hbs
        exact List.Lex.rel hab

end

/-! ## The join -/

open Substitution

/-- Some assignment that solves a substitution turns goals into facts, each goal into the fact in
its place. -/
def Joins (σ : Substitution) (goals fs : List Atom) : Prop :=
  ∃ h : Variable → Term, σ.SolvedBy h ∧ goals.map (·.bind h) = fs

/-- What becomes of goals under a substitution. -/
def Substitution.row (θ : Substitution) (goals : List Atom) : List Atom :=
  goals.map θ.applyAtom

section

variable {facts goals : List Atom} {σ : Substitution}

/-- The first goal is matched with the first fact, and the rest is a join under the bindings that
this takes. -/
theorem Substitution.Matches.joins_cons_iff {goal f : Atom} {μ : Substitution}
    (h : σ.Matches goal f μ) {fs : List Atom} :
    Joins σ (goal :: goals) (f :: fs) ↔ Joins μ goals fs := by
  simp only [Joins, h.solvedBy, List.map_cons, List.cons.injEq, and_assoc]

theorem Satisfies.row_eq {θ : Substitution} (h : Satisfies facts goals σ θ) :
    θ.row goals = goals.map (·.bind θ.value) :=
  List.map_congr_left fun g _ => h.closed.applyAtom_eq g

open Classical in
/-- **The goals become the choices of facts that some assignment turns them into, in the order of
choices.** -/
theorem satisfy_rows (hfacts : ∀ f ∈ facts, f.Closed) (hgoals : ∀ g ∈ goals, g.isProper)
    (hσ : σ.Closed) :
    (satisfy facts goals σ).map (·.row goals)
      = (choices (goals.map (·.candidates facts))).filter (Joins σ goals ·) := by
  induction goals generalizing σ with
  | nil =>
      have hjoins : Joins σ [] [] := ⟨σ.value, hσ.solvedBy_value, rfl⟩
      simp [satisfy, row, choices, hjoins]
  | cons goal goals ih =>
      obtain ⟨hgoal, hrest⟩ := List.forall_mem_cons.mp hgoals
      rw [satisfy, List.map_cons, choices, List.map_flatMap, List.filter_flatMap]
      refine List.flatMap_congr fun f hf => ?_
      have hclosed := hfacts f (List.mem_filter.mp hf).1
      rw [List.filter_map]
      cases hμ : σ.unifyAtoms? goal f with
      | none =>
          -- no assignment turns the goal into this fact, whatever is chosen for the others
          symm
          rw [List.map_nil, List.map_eq_nil_iff, List.filter_eq_nil_iff]
          intro fs _ hjoins
          obtain ⟨h, hsolved, hfs⟩ := of_decide_eq_true hjoins
          exact ne_of_unifyAtoms?_eq_none hσ hgoal hclosed hμ hsolved (List.cons.inj hfs).1
      | some μ =>
          have hmatch := matches_of_unifyAtoms? hσ hgoal hclosed hμ
          have hrow : ∀ θ ∈ satisfy facts goals μ, θ.row (goal :: goals) = f :: θ.row goals := by
            intro θ hθ
            have hsat := satisfies_of_mem_satisfy hfacts hrest hmatch.closed hθ
            have hsolved := (hsat.solvedBy _ hsat.closed.solvedBy_value).1
            rw [row, List.map_cons, hsat.closed.applyAtom_eq, ((hmatch.solvedBy _).mp hsolved).2]
            rfl
          calc (satisfy facts goals μ).map (·.row (goal :: goals))
              = ((satisfy facts goals μ).map (·.row goals)).map (f :: ·) := by
                rw [List.map_map]
                exact List.map_congr_left hrow
            _ = ((choices (goals.map (·.candidates facts))).filter (Joins μ goals ·)).map
                (f :: ·) := by
                rw [ih hrest hmatch.closed]
            _ = _ := by
                congr 1
                refine List.filter_congr fun fs _ => ?_
                exact decide_eq_decide.mpr hmatch.joins_cons_iff.symm

/-! ## Budgets -/

namespace Substitution

variable {pairs others : List (Term × Term)}

/-- A budget that was enough stays enough when it is raised. -/
theorem solve_mono {budget more : Nat} (hmore : budget ≤ more) {θ : Substitution}
    (h : solve budget σ pairs = some θ) : solve more σ pairs = some θ := by
  fun_induction solve budget σ pairs generalizing more with
  | case1 budget σ pairs hd =>
      rw [solve, hd]
      exact h
  | case2 σ pairs d hd x s budget hb ih =>
      obtain ⟨more, rfl⟩ : ∃ n, more = n + 1 := ⟨more - 1, by omega⟩
      rw [solve, hd]
      simp only [hb]
      exact ih (by omega) h
  | case3 => cases h

/-- Budgets for all variables that are not bound yet lead to the same outcome. -/
theorem solve_eq_of_le (hσ : σ.Triangular) (hproper : σ.IsProper) (hpairs : ProperPairs pairs)
    {budget more : Nat} (hbudget : (σ.freeVariables pairs).card ≤ budget) (hmore : budget ≤ more) :
    solve budget σ pairs = solve more σ pairs := by
  have hspec := solve_spec hσ hproper hpairs hbudget
  have hspec' := solve_spec hσ hproper hpairs (hbudget.trans hmore)
  cases hsolve : solve budget σ pairs with
  | some θ => exact (solve_mono hmore hsolve).symm
  | none =>
      cases hsolve' : solve more σ pairs with
      | none => rfl
      | some θ =>
          rw [hsolve] at hspec
          rw [hsolve'] at hspec'
          obtain ⟨hsolved, hunifies⟩ := (hspec'.solvedBy _).mp hspec'.triangular.solvedBy_apply
          exact absurd hunifies (hspec _ hsolved)

theorem solve_congr (h : σ.difference? pairs = σ.difference? others) (budget : Nat) :
    solve budget σ pairs = solve budget σ others := by
  rw [solve, solve, h]

theorem Closed.apply_apply (hσ : σ.Closed) (t : Term) : σ.apply (σ.apply t) = σ.apply t := by
  rw [hσ.apply_eq (σ.apply t), bind_apply hσ.solvedBy_value, hσ.apply_eq]

/-- A goal may be read under a substitution before it is unified under it. -/
theorem Closed.unifyAtoms?_bind_value (hσ : σ.Closed) {goal f : Atom} (hgoal : goal.isProper)
    (hf : f.isProper) : σ.unifyAtoms? (goal.bind σ.value) f = σ.unifyAtoms? goal f := by
  have happlied : (goal.bind σ.value).toTerm = σ.apply goal.toTerm := by
    rw [Atom.toTerm_bind, hσ.apply_eq]
  have hread : (goal.bind σ.value).isProper :=
    Atom.isProper_bind.mpr ⟨hgoal, fun x _ => hσ.isProper_value x⟩
  have hdifference : σ.difference? [((goal.bind σ.value).toTerm, f.toTerm)]
      = σ.difference? [(goal.toTerm, f.toTerm)] := by
    simp only [difference?, happlied, hσ.apply_apply]
  unfold unifyAtoms? unify? unifyPairs?
  set few := (σ.occurrences [((goal.bind σ.value).toTerm, f.toTerm)]).length with hfew
  set many := (σ.occurrences [(goal.toTerm, f.toTerm)]).length with hmany
  calc solve few σ [((goal.bind σ.value).toTerm, f.toTerm)]
      = solve (max few many) σ [((goal.bind σ.value).toTerm, f.toTerm)] :=
        solve_eq_of_le hσ.triangular hσ.isProper (properPairs_atoms hread hf)
          (card_freeVariables_le _ _) (Nat.le_max_left ..)
    _ = solve (max few many) σ [(goal.toTerm, f.toTerm)] := solve_congr hdifference _
    _ = solve many σ [(goal.toTerm, f.toTerm)] :=
        (solve_eq_of_le hσ.triangular hσ.isProper (properPairs_atoms hgoal hf)
          (card_freeVariables_le _ _) (Nat.le_max_right ..)).symm

end Substitution

theorem trySatisfy_cons {t : Term} {goal : Atom} (hgoal : goal.isProper)
    (ht : σ.tryApply t = .ok goal.toTerm) (rest : List Term) : trySatisfy facts (t :: rest) σ =
      ((goal.candidates facts).mapM fun f => σ.tryUnify goal.toTerm f.toTerm >>= fun
        | some θ => trySatisfy facts rest θ
        | none => .ok []) >>= fun found => .ok found.flatten := by
  rw [trySatisfy, ht, ok_bind]
  change (goal.requireKey >>= fun _ => _) = _
  rw [KnowledgeBase.requireKey_eq_ok hgoal, ok_bind]
  rfl

/-- **The checked search finds the same extensions.** -/
theorem trySatisfy_eq (hfacts : ∀ f ∈ facts, f.Closed) (hgoals : ∀ g ∈ goals, g.isProper)
    (hσ : σ.Closed) :
    trySatisfy facts (goals.map Atom.toTerm) σ = .ok (satisfy facts goals σ) := by
  -- induction on the goals; the checked search applies the bindings to a goal before it matches it
  induction goals generalizing σ with
  | nil => rfl
  | cons goal goals ih =>
      obtain ⟨hgoal, hrest⟩ := List.forall_mem_cons.mp hgoals
      have hread : (goal.bind σ.value).isProper :=
        Atom.isProper_bind.mpr ⟨hgoal, fun x _ => hσ.isProper_value x⟩
      have hcandidates : (goal.bind σ.value).candidates facts = goal.candidates facts := by
        simp only [Atom.candidates, Atom.key_bind]
      have happlied : σ.tryApply goal.toTerm = .ok (goal.bind σ.value).toTerm := by
        rw [hσ.tryApply_eq hgoal, Atom.toTerm_bind]
      rw [List.map_cons, trySatisfy_cons hread happlied, hcandidates, satisfy, List.flatMap_def,
        mapM_eq_ok_map, ok_bind]
      intro f hf
      have hclosed := hfacts f (List.mem_filter.mp hf).1
      rw [hσ.triangular.loopfree.tryUnify_eq hσ.isProper hread hclosed.1, ok_bind]
      change (match σ.unifyAtoms? (goal.bind σ.value) f with | some θ => _ | none => _) = _
      rw [hσ.unifyAtoms?_bind_value hgoal hclosed.1]
      cases hμ : σ.unifyAtoms? goal f with
      | none => rfl
      | some μ => exact ih hrest (matches_of_unifyAtoms? hσ hgoal hclosed hμ).closed

end

/-! ## Indexed facts -/

/-- Ground facts under their predicates and numbers of arguments, in lists without repetitions. -/
structure FactIndex where
  entries : List ((Symbol × Nat) × List Atom)
  keys : (entries.map Prod.fst).Nodup
  key_eq : ∀ entry ∈ entries, ∀ f ∈ entry.2, f.key = entry.1
  closed : ∀ entry ∈ entries, ∀ f ∈ entry.2, f.Closed
  nodup : ∀ entry ∈ entries, entry.2.Nodup

namespace FactIndex

/-- The facts under a key. -/
def get (index : FactIndex) (key : Symbol × Nat) : List Atom :=
  (index.entries.lookup key).getD []

/-- All facts, list after list. -/
def facts (index : FactIndex) : List Atom :=
  index.entries.flatMap Prod.snd

variable {index : FactIndex} {goals : List Atom}

theorem closed_of_mem_facts {f : Atom} (hf : f ∈ index.facts) : f.Closed := by
  obtain ⟨entry, hentry, hmem⟩ := List.mem_flatMap.mp hf
  exact index.closed entry hentry f hmem

/-- What is found under a key is one of the lists, or there is nothing to be found. -/
theorem get_cases (index : FactIndex) (key : Symbol × Nat) :
    index.get key = [] ∨ ∃ entry ∈ index.entries, index.get key = entry.2 := by
  unfold get
  cases hlookup : index.entries.lookup key with
  | none => exact Or.inl rfl
  | some found =>
      obtain ⟨entry, hentry, -, rfl⟩ := exists_of_lookup_eq_some hlookup
      exact Or.inr ⟨entry, hentry, rfl⟩

theorem closed_of_mem_get {key : Symbol × Nat} {f : Atom} (hf : f ∈ index.get key) : f.Closed := by
  rcases index.get_cases key with hnone | ⟨entry, hentry, hget⟩
  · rw [hnone] at hf
    exact absurd hf List.not_mem_nil
  · exact index.closed entry hentry f (hget ▸ hf)

theorem pairwise_get (key : Symbol × Nat) :
    (index.get key).Pairwise fun f g => (index.get key).idxOf f < (index.get key).idxOf g := by
  refine pairwise_idxOf (fun f hf g _ => Atom.beq_iff_eq_of_isProper (closed_of_mem_get hf).1) ?_
  rcases index.get_cases key with hnone | ⟨entry, hentry, hget⟩
  · rw [hnone]
    exact List.nodup_nil
  · rw [hget]
    exact index.nodup entry hentry

theorem key_beq_iff_eq {goal : Atom} (hgoal : goal.isProper) {key : Symbol × Nat} :
    goal.key == key ↔ goal.key = key := by
  obtain ⟨f, n⟩ := key
  rw [Atom.key, Prod.mk.injEq,
    ← Symbol.beq_iff_eq_of_isText (Or.inl (Atom.isProper_iff.mp hgoal).1)]
  exact Bool.and_eq_true_iff.trans (and_congr_right fun _ => beq_iff_eq)

/-- Of lists under distinct keys, the facts with the key of a goal fill exactly the list under that
key. -/
theorem flatMap_filter_key {goal : Atom} (hgoal : goal.isProper)
    {entries : List ((Symbol × Nat) × List Atom)} (hkeys : (entries.map Prod.fst).Nodup)
    (hentries : ∀ entry ∈ entries, ∀ f ∈ entry.2, f.key = entry.1) :
    (entries.flatMap fun entry => entry.2.filter fun f => f.key == goal.key)
      = (entries.lookup goal.key).getD [] := by
  have hother : ∀ entry ∈ entries, entry.1 ≠ goal.key →
      (entry.2.filter fun f => f.key == goal.key) = [] := by
    intro entry hentry hne
    refine List.filter_eq_nil_iff.mpr fun f hf => ?_
    rw [Atom.key_beq_iff (Or.inr hgoal), hentries entry hentry f hf]
    exact hne
  induction entries with
  | nil => rfl
  | cons entry rest ih =>
      obtain ⟨hfirst, hrest⟩ := List.nodup_cons.mp hkeys
      rw [List.flatMap_cons, List.lookup_cons]
      -- the list under the key is the only one with facts that have the key
      by_cases hkey : entry.1 = goal.key
      · have hnone :
            (rest.flatMap fun entry => entry.2.filter fun f => f.key == goal.key) = [] := by
          refine List.flatMap_eq_nil_iff.mpr fun other hmem => ?_
          refine hother other (List.mem_cons_of_mem _ hmem) fun hsame => hfirst ?_
          exact List.mem_map.mpr ⟨other, hmem, hsame.trans hkey.symm⟩
        have hall : (entry.2.filter fun f => f.key == goal.key) = entry.2 := by
          refine List.filter_eq_self.mpr fun f hf => ?_
          rw [Atom.key_beq_iff (Or.inr hgoal), hentries entry List.mem_cons_self f hf, hkey]
        rw [hnone, hall, (key_beq_iff_eq hgoal).mpr hkey.symm, List.append_nil]
        rfl
      · have hne : (goal.key == entry.1) = false := by
          rw [Bool.eq_false_iff, ne_eq, key_beq_iff_eq hgoal]
          exact Ne.symm hkey
        rw [hother entry List.mem_cons_self hkey, hne, List.nil_append]
        exact ih hrest (fun e he => hentries e (List.mem_cons_of_mem _ he))
          fun e he => hother e (List.mem_cons_of_mem _ he)

theorem candidates_facts {goal : Atom} (hgoal : goal.isProper) :
    goal.candidates index.facts = index.get goal.key := by
  rw [Atom.candidates, facts, List.filter_flatMap]
  exact flatMap_filter_key hgoal index.keys index.key_eq

/-- **Matching goals with indexed facts lists every match once, in lexicographic order.** The facts
that the goals are turned into, extension by extension, are exactly the choices of a fact for every
goal that one ground substitution of the variables turns the goals into.  They come in the strict
lexicographic order of the positions of the facts in their lists, so none of them comes twice.  An
extension binds the variables of the goals, to ground terms, and nothing else. -/
theorem satisfy_spec (index : FactIndex) (hgoals : ∀ g ∈ goals, g.isProper) :
    ∃ found, trySatisfy index.facts (goals.map Atom.toTerm) ∅ = .ok found ∧
    satisfy index.facts goals ∅ = found ∧
      (∀ fs, fs ∈ found.map (·.row goals) ↔
        List.Forall₂ (fun f g => f ∈ index.get g.key) fs goals ∧
          ∃ h : Variable → Term, (∀ g ∈ goals, ∀ x ∈ g.vars, (h x).Closed) ∧
          goals.map (·.bind h) = fs) ∧
      (found.map (·.row goals)).Nodup ∧
      (found.map (·.row goals)).Pairwise (fun fs gs => List.Lex (· < ·)
        (places (goals.map (index.get ·.key)) fs) (places (goals.map (index.get ·.key)) gs)) ∧
      ∀ θ ∈ found, θ.Closed ∧ ∀ name, name ∈ θ.names ↔
      ∃ g ∈ goals, ∃ x ∈ g.vars, x.name = name := by
  classical
  have hfacts : ∀ f ∈ index.facts, f.Closed := fun f hf => closed_of_mem_facts hf
  have hlists : goals.map (·.candidates index.facts) = goals.map (index.get ·.key) :=
    List.map_congr_left fun g hg => candidates_facts (hgoals g hg)
  have hrows := satisfy_rows hfacts hgoals closed_empty
  rw [hlists] at hrows
  have hordered :
      ((satisfy index.facts goals ∅).map (·.row goals)).Pairwise fun fs gs => List.Lex (· < ·)
      (places (goals.map (index.get ·.key)) fs) (places (goals.map (index.get ·.key)) gs) := by
    rw [hrows]
    refine (pairwise_choices fun l hl => ?_).filter _
    obtain ⟨g, -, rfl⟩ := List.mem_map.mp hl
    exact pairwise_get g.key
  refine ⟨_, trySatisfy_eq hfacts hgoals closed_empty, rfl, fun fs => ?_, ?_, hordered,
    fun θ hθ => ?_⟩
  · rw [hrows, List.mem_filter, mem_choices, List.forall₂_map_right_iff, decide_eq_true_iff]
    refine and_congr_right fun hchosen => ?_
    constructor
    · rintro ⟨h, -, rfl⟩
      rw [List.forall₂_map_left_iff, List.forall₂_same] at hchosen
      refine ⟨h, fun g hg => ?_, rfl⟩
      exact (Atom.closed_bind.mp (closed_of_mem_get (hchosen g hg))).2
    · rintro ⟨h, -, hfs⟩
      exact ⟨h, solvedBy_empty h, hfs⟩
  · -- rows in a strict order do not repeat
    refine hordered.imp fun {fs gs} hlex heq => ?_
    subst heq
    exact List.lex_irrefl (fun n => Nat.lt_irrefl n) _ hlex
  · have hsat := satisfies_of_mem_satisfy hfacts hgoals closed_empty hθ
    refine ⟨hsat.closed, fun name => ⟨fun hname => ?_, ?_⟩⟩
    · exact (hsat.names name hname).resolve_left List.not_mem_nil
    · rintro ⟨g, hg, x, hx, rfl⟩
      exact hsat.bound g hg x hx

/-- Two crossings, of which the second goes on from where the first ends. -/
def crossings : FactIndex :=
  let crossing : Symbol := .text "Crossing" (by decide)
  let town (name : String) (h : name ≠ "") (h' : Text.startsLowercase name = false) : Term :=
    .const ⟨name, h, h'⟩
  let start := town "Dover" (by decide) (by decide)
  let middle := town "Calais" (by decide) (by decide)
  let goal := town "Lyon" (by decide) (by decide)
  { entries := [((crossing, 2), [⟨crossing, [start, middle]⟩, ⟨crossing, [middle, goal]⟩])]
    keys := List.nodup_singleton _
    key_eq := by simp [Atom.key]
    closed := List.forall_mem_singleton.mpr
      (List.forall_mem_cons.mpr ⟨⟨rfl, rfl⟩, List.forall_mem_singleton.mpr ⟨rfl, rfl⟩⟩)
    nodup := by simp [start, middle, goal, town] }

/-- A crossing to a harbour and on from there. -/
def twoCrossings : List Atom :=
  let crossing (a b : Term) : Atom := ⟨.text "Crossing" (by decide), [a, b]⟩
  let x : Term := .var ⟨"port", by decide⟩
  let y : Term := .var ⟨"harbour", by decide⟩
  let z : Term := .var ⟨"inland", by decide⟩
  [crossing x y, crossing y z]

theorem satisfy_spec_crossings :
    ∃ found, trySatisfy crossings.facts (twoCrossings.map Atom.toTerm) ∅ = .ok found ∧
      found.map (·.row twoCrossings) = [crossings.facts] ∧
      (∀ fs, fs ∈ found.map (·.row twoCrossings) ↔
        List.Forall₂ (fun f g => f ∈ crossings.get g.key) fs twoCrossings ∧
          ∃ h : Variable → Term, (∀ g ∈ twoCrossings, ∀ x ∈ g.vars, (h x).Closed) ∧
            twoCrossings.map (·.bind h) = fs) := by
  have hgoals : ∀ g ∈ twoCrossings, g.isProper := by decide
  obtain ⟨found, hchecked, hfound, hrows, -⟩ := satisfy_spec crossings hgoals
  exact ⟨found, hchecked, by rw [← hfound]; rfl, hrows⟩

end FactIndex

end HornPlan
