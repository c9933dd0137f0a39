import HornPlan.Proofs.Joins

/-!
# Renaming the variables of rules

Before chaining, the variables of the rule with number `i` get the suffix `_i`.

What a rule concludes does not change (`conclusions_standardizeApart`).  The renamed antecedents are
matched with the same lists of facts, and an assignment for the old names can be read as one for the
new names and back, so by `satisfy_rows` they become the same facts in the same order.  A safe rule
has every variable of its consequent in an antecedent; hence the facts determine the conclusion.

Two renamed rules have no variable in common, whatever names they use (`disjoint_renamedRules`): a
name that ends in `_` and the digits of a number determines the number, since no digit is an
underscore.

A renamed rule may share variables with the rule itself.  It does exactly when a variable of the
rule is another one of its variables with the suffix (`standardizeApart_spec`).
-/

namespace HornPlan

/-! ## Names that end in a number -/

section

variable {α : Type} {a : α} {l m ds es : List α}

theorem eq_of_cons_eq_append_cons (hds : a ∉ ds) (h : a :: ds = l ++ a :: es) : ds = es := by
  cases l with
  | nil => exact (List.cons.inj h).2
  | cons b l =>
      have hrest : ds = l ++ a :: es := (List.cons.inj h).2
      exact absurd (hrest ▸ List.mem_append_right l List.mem_cons_self) hds

/-- What comes after the last occurrence of a member is determined by the list. -/
theorem eq_of_append_cons_eq (hds : a ∉ ds) (hes : a ∉ es) (h : l ++ a :: ds = m ++ a :: es) :
    ds = es := by
  rcases List.append_eq_append_iff.mp h with ⟨middle, -, hmiddle⟩ | ⟨middle, -, hmiddle⟩
  · exact eq_of_cons_eq_append_cons hds hmiddle
  · exact (eq_of_cons_eq_append_cons hes hmiddle).symm

end

theorem underscore_not_mem_toDigits (n : Nat) : '_' ∉ Nat.toDigits 10 n := by
  intro hmem
  have hdigit := Nat.isDigit_of_mem_toDigits (by decide) (by decide) hmem
  exact absurd hdigit (by decide)

theorem Variable.eq_of_withSuffix_eq {i j : Nat} {x y : Variable}
    (h : x.withSuffix ("_" ++ toString i) = y.withSuffix ("_" ++ toString j)) : i = j := by
  have hlists :
      x.name.toList ++ '_' :: Nat.toDigits 10 i = y.name.toList ++ '_' :: Nat.toDigits 10 j := by
    have hnames : (x.name ++ ("_" ++ toString i)).toList = (y.name ++ ("_" ++ toString j)).toList :=
      congrArg (fun z : Variable => z.name.toList) h
    simpa [Nat.toString_eq_repr, Nat.toList_repr] using hnames
  have hdigits : Nat.toDigits 10 i = Nat.toDigits 10 j :=
    eq_of_append_cons_eq (underscore_not_mem_toDigits i) (underscore_not_mem_toDigits j) hlists
  calc i = Nat.ofDigitChars 10 (Nat.toDigits 10 i) 0 := Nat.ofDigitChars_ten_toDigits.symm
    _ = Nat.ofDigitChars 10 (Nat.toDigits 10 j) 0 := by rw [hdigits]
    _ = j := Nat.ofDigitChars_ten_toDigits

theorem Variable.withSuffix_ne {suffix : String} (hsuffix : suffix ≠ "") (x : Variable) :
    x.withSuffix suffix ≠ x := by
  intro h
  have hname : x.name ++ suffix = x.name := congrArg Variable.name h
  exact hsuffix (String.append_eq_left_iff.mp hname)

/-! ## The variables of a renamed clause -/

theorem Term.vars_bind_var (f : Variable → Variable) (t : Term) :
    (t.bind fun x => .var (f x)).vars = t.vars.map f := by
  induction t using Term.inductionOnArgs with
  | var x => rfl
  | const c => rfl
  | app s args ih =>
      rw [bind_app, vars, vars, varsList_eq_flatMap, varsList_eq_flatMap, List.flatMap_map,
        List.map_flatMap]
      exact List.flatMap_congr ih
  | foreign a => rfl

theorem Atom.vars_bind_var (f : Variable → Variable) (a : Atom) :
    (a.bind fun x => .var (f x)).vars = a.vars.map f := by
  have hterm := Term.vars_bind_var f a.toTerm
  rwa [← toTerm_bind] at hterm

namespace Clause

variable {c : Clause} {suffix : String}

theorem vars_standardizeApart (c : Clause) (suffix : String) :
    (c.standardizeApart suffix).vars = c.vars.map (·.withSuffix suffix) := by
  have hbody : (c.antecedents.map (·.bind fun x => .var (x.withSuffix suffix))).flatMap Atom.vars
      = c.bodyVariables.map (·.withSuffix suffix) := by
    rw [List.flatMap_map, bodyVariables, List.map_flatMap]
    exact List.flatMap_congr fun a _ => Atom.vars_bind_var _ a
  rw [vars, vars, List.map_append, ← hbody]
  exact congrArg (· ++ _) (Atom.vars_bind_var _ c.consequent)

end Clause

/-- An assignment for the old names, read as one for the new names. -/
noncomputable def renamedAssignment (suffix : String) (h : Variable → Term) : Variable → Term :=
  Function.extend (fun x : Variable => x.withSuffix suffix) h Term.var

theorem Atom.bind_renamedAssignment (suffix : String) (h : Variable → Term) (a : Atom) :
    (a.bind fun x => .var (x.withSuffix suffix)).bind (renamedAssignment suffix h) = a.bind h := by
  rw [bind_bind]
  exact bind_congr fun x _ => (Clause.withSuffix_injective suffix).extend_apply h Term.var x

namespace Clause

variable {c : Clause} {suffix : String} {known : List Atom}

theorem bind_renamedAssignment (c : Clause) (suffix : String) (h : Variable → Term) :
    (c.standardizeApart suffix).bind (renamedAssignment suffix h) = c.bind h := by
  rw [standardizeApart, bind, bind, bind, List.map_map, Atom.bind_renamedAssignment]
  exact congrArg (Clause.mk · _) (List.map_congr_left fun a _ => a.bind_renamedAssignment suffix h)

theorem bind_standardizeApart (c : Clause) (suffix : String) (h : Variable → Term) :
    (c.standardizeApart suffix).bind h = c.bind fun x => h (x.withSuffix suffix) := by
  rw [standardizeApart, bind, bind, bind, List.map_map, Atom.bind_bind]
  exact congrArg (Clause.mk · _) (List.map_congr_left fun a _ => Atom.bind_bind _ h a)

theorem bind_eq_self (c : Clause) : c.bind Term.var = c := by
  rw [bind, c.consequent.bind_eq_self, List.map_congr_left fun a _ => a.bind_eq_self, List.map_id']

/-- **Renaming is consistent and injective, and it is fresh exactly where no variable is another one
with the suffix.** The variables become, occurrence by occurrence, those with the suffix, so that
two occurrences get one new name exactly if they had one old name, and renaming can be undone.  No
variable keeps its name.  But a new name is an old one where a variable of the clause is another one
with the suffix. -/
theorem standardizeApart_spec (c : Clause) (hsuffix : suffix ≠ "") :
    (c.standardizeApart suffix).vars = c.vars.map (·.withSuffix suffix) ∧
    (∀ i j : Nat, (c.standardizeApart suffix).vars[i]? = (c.standardizeApart suffix).vars[j]? ↔
      c.vars[i]? = c.vars[j]?) ∧
    (∃ back, (c.standardizeApart suffix).bind back = c) ∧
    (∀ x ∈ c.vars, x.withSuffix suffix ≠ x) ∧
    ((∀ y ∈ (c.standardizeApart suffix).vars, y ∉ c.vars) ↔
      ∀ x ∈ c.vars, ∀ z ∈ c.vars, z ≠ x.withSuffix suffix) := by
  have hvars := c.vars_standardizeApart suffix
  refine ⟨hvars, fun i j => ?_, ⟨_, (c.bind_renamedAssignment suffix _).trans c.bind_eq_self⟩,
    fun x _ => x.withSuffix_ne hsuffix, ?_⟩
  · rw [hvars, List.getElem?_map, List.getElem?_map]
    exact (Option.map_injective (withSuffix_injective suffix)).eq_iff
  · rw [hvars, List.forall_mem_map]
    refine forall₂_congr fun x _ => ⟨fun hfresh z hz hsame => hfresh (hsame ▸ hz), ?_⟩
    intro hapart hmem
    exact hapart _ hmem rfl

/-- Two variables, of which one has the other's name and a suffix, change places. -/
def swap : Clause :=
  let faces : Symbol := .text "Faces" (by decide)
  let x : Term := .var ⟨"west", by decide⟩
  let y : Term := .var ⟨"west_9", by decide⟩
  ⟨[⟨faces, [x, y]⟩], ⟨faces, [y, x]⟩⟩

theorem standardizeApart_spec_swap : "_9" ≠ "" ∧
    (swap.standardizeApart "_9").vars = swap.vars.map (·.withSuffix "_9") ∧
    (∀ i j : Nat, (swap.standardizeApart "_9").vars[i]? = (swap.standardizeApart "_9").vars[j]? ↔
      swap.vars[i]? = swap.vars[j]?) ∧
    ((∀ y ∈ (swap.standardizeApart "_9").vars, y ∉ swap.vars) ↔
      ∀ x ∈ swap.vars, ∀ z ∈ swap.vars, z ≠ x.withSuffix "_9") := by
  have hsuffix : "_9" ≠ "" := by decide
  obtain ⟨hvars, hconsistent, -, -, hfresh⟩ := swap.standardizeApart_spec hsuffix
  exact ⟨hsuffix, hvars, hconsistent, hfresh⟩

/-- Renaming may give a variable a name that another variable of the clause has. -/
theorem not_forall_fresh : ¬∀ (c : Clause) (suffix : String), suffix ≠ "" →
    (∀ y ∈ (c.standardizeApart suffix).vars, y ∉ c.vars) ∧
    ∀ i j : Nat, (c.standardizeApart suffix).vars[i]? = (c.standardizeApart suffix).vars[j]? ↔
      c.vars[i]? = c.vars[j]? := by
  intro h
  have hfresh := (h swap "_9" (by decide)).1
  exact hfresh ⟨"west_9", by decide⟩ (by decide) (by decide)

/-! ## What a renamed rule concludes -/

theorem candidates_bind (a : Atom) (f : Variable → Term) :
    (a.bind f).candidates known = a.candidates known := by
  simp only [Atom.candidates, Atom.key_bind]

theorem joins_standardizeApart {fs : List Atom} :
    Joins ∅ (c.standardizeApart suffix).antecedents fs ↔ Joins ∅ c.antecedents fs := by
  constructor
  · rintro ⟨h, -, rfl⟩
    refine ⟨fun x => h (x.withSuffix suffix), Substitution.solvedBy_empty _, ?_⟩
    exact congrArg antecedents (c.bind_standardizeApart suffix h).symm
  · rintro ⟨h, -, rfl⟩
    exact ⟨_, Substitution.solvedBy_empty _,
      congrArg antecedents (c.bind_renamedAssignment suffix h)⟩

theorem rows_standardizeApart (hproper : c.isProper) (hknown : ∀ f ∈ known, f.Closed)
    (suffix : String) :
    (satisfy known (c.standardizeApart suffix).antecedents ∅).map
      (·.row (c.standardizeApart suffix).antecedents)
      = (satisfy known c.antecedents ∅).map (·.row c.antecedents) := by
  have hrenamed := isProper_standardizeApart hproper suffix
  have hlists : (c.standardizeApart suffix).antecedents.map (·.candidates known)
      = c.antecedents.map (·.candidates known) := by
    rw [standardizeApart, bind, List.map_map]
    exact List.map_congr_left fun a _ => candidates_bind a _
  rw [satisfy_rows hknown (isProper_iff.mp hrenamed).1 Substitution.closed_empty,
    satisfy_rows hknown (isProper_iff.mp hproper).1 Substitution.closed_empty, hlists]
  exact List.filter_congr fun fs _ => decide_eq_decide.mpr joins_standardizeApart

end Clause

theorem map_eq_map_of_map_eq_map {α β γ δ : Type} {as : List α} {bs : List β}
    {f : α → γ} {g : β → γ} {f' : α → δ} {g' : β → δ} (h : as.map f = bs.map g)
    (hfollows : ∀ a ∈ as, ∀ b ∈ bs, f a = g b → f' a = g' b) : as.map f' = bs.map g' := by
  induction as generalizing bs with
  | nil =>
      rw [List.map_nil, eq_comm, List.map_eq_nil_iff] at h
      rw [h]
      rfl
  | cons a as ih =>
      obtain ⟨b, bs, rfl, hfirst, hrest⟩ := List.map_eq_cons_iff.mp h.symm
      rw [List.map_cons, List.map_cons,
        hfollows a List.mem_cons_self b List.mem_cons_self hfirst.symm,
        ih hrest.symm
          fun c hc d hd => hfollows c (List.mem_cons_of_mem _ hc) d (List.mem_cons_of_mem _ hd)]

theorem Atom.eq_of_bind_eq {f g : Variable → Term} {a : Atom} (h : a.bind f = a.bind g) :
    ∀ x ∈ a.vars, f x = g x := by
  have hterm := congrArg toTerm h
  rw [toTerm_bind, toTerm_bind] at hterm
  exact Term.eq_of_bind_eq hterm

namespace Clause

variable {c : Clause} {known : List Atom}

/-- The facts that the antecedents become determine what a safe rule concludes. -/
theorem Safe.bind_consequent_eq (hsafe : c.Safe) {h h' : Variable → Term}
    (heq : c.antecedents.map (·.bind h) = c.antecedents.map (·.bind h')) :
    c.consequent.bind h = c.consequent.bind h' := by
  refine Atom.bind_congr fun x hx => ?_
  obtain ⟨a, ha, hxa⟩ := Clause.mem_bodyVariables.mp (hsafe.mem_bodyVariables hx)
  exact Atom.eq_of_bind_eq (List.map_inj_left.mp heq a ha) x hxa

/-- **A renamed rule concludes the same, in the same order.** -/
theorem conclusions_standardizeApart (hproper : c.isProper) (hsafe : c.Safe)
    (hknown : ∀ f ∈ known, f.Closed) (suffix : String) :
    (c.standardizeApart suffix).conclusions known = c.conclusions known := by
  have hrenamed := isProper_standardizeApart hproper suffix
  refine map_eq_map_of_map_eq_map (rows_standardizeApart hproper hknown suffix)
    fun μ hμ θ hθ hrow => ?_
  have hsatμ :=
    satisfies_of_mem_satisfy hknown (isProper_iff.mp hrenamed).1 Substitution.closed_empty hμ
  have hsatθ :=
    satisfies_of_mem_satisfy hknown (isProper_iff.mp hproper).1 Substitution.closed_empty hθ
  rw [hsatμ.row_eq, hsatθ.row_eq] at hrow
  have hsame : c.antecedents.map (·.bind fun x => μ.value (x.withSuffix suffix))
      = c.antecedents.map (·.bind θ.value) :=
    (congrArg antecedents (c.bind_standardizeApart suffix μ.value)).symm.trans hrow
  calc μ.applyAtom (c.standardizeApart suffix).consequent
      = (c.standardizeApart suffix).consequent.bind μ.value := hsatμ.closed.applyAtom_eq _
    _ = c.consequent.bind fun x => μ.value (x.withSuffix suffix) :=
        congrArg consequent (c.bind_standardizeApart suffix μ.value)
    _ = c.consequent.bind θ.value := hsafe.bind_consequent_eq hsame
    _ = θ.applyAtom c.consequent := (hsatθ.closed.applyAtom_eq _).symm

end Clause

/-! ## The renamed rules of a knowledge base -/

section

variable {rules : List Clause} {known : List Atom}

theorem getElem?_renamedRules (rules : List Clause) (i : Nat) :
    (renamedRules rules)[i]? = rules[i]?.map (·.standardizeApart ("_" ++ toString i)) := by
  rw [renamedRules, List.getElem?_map, List.getElem?_zipIdx, Option.map_map, Nat.zero_add]
  rfl

/-- **Renamed rules have no variable in common.** -/
theorem disjoint_renamedRules (rules : List Clause) :
    (renamedRules rules).Pairwise fun r s => ∀ x ∈ r.vars, x ∉ s.vars := by
  have hnumbered : rules.zipIdx.Pairwise fun p q => p.2 < q.2 := by
    rw [← List.pairwise_map (f := Prod.snd) (R := (· < ·)), List.zipIdx_map_snd]
    exact List.pairwise_lt_range'
  refine List.pairwise_map.mpr (hnumbered.imp fun {p q} hlt x hx hmem => ?_)
  rw [Clause.vars_standardizeApart, List.mem_map] at hx hmem
  obtain ⟨y, -, rfl⟩ := hx
  obtain ⟨z, -, hz⟩ := hmem
  exact absurd (Variable.eq_of_withSuffix_eq hz) (Nat.ne_of_gt hlt)

theorem map_conclusions_renamedRules (hrules : ProperRules rules) (hknown : ∀ f ∈ known, f.Closed) :
    (renamedRules rules).map (·.conclusions known) = rules.map (·.conclusions known) := by
  refine List.ext_getElem? fun i => ?_
  rw [List.getElem?_map, List.getElem?_map, getElem?_renamedRules, Option.map_map]
  cases hrule : rules[i]? with
  | none => rfl
  | some r =>
      obtain ⟨hproper, hsafe⟩ := hrules r (List.mem_of_getElem? hrule)
      exact congrArg some (Clause.conclusions_standardizeApart hproper hsafe hknown _)

theorem round_renamedRules (hrules : ProperRules rules) (hknown : ∀ f ∈ known, f.Closed) :
    round (renamedRules rules) known = round rules known := by
  have hnone : rules.any (·.misfires known) = false := by
    refine List.any_eq_false.mpr fun r hr => ?_
    rw [Clause.misfires_eq_false (hrules r hr).1]
    exact Bool.false_ne_true
  have hsame : newFacts (renamedRules rules) known = newFacts rules known := by
    rw [newFacts, newFacts, List.flatMap_def, List.flatMap_def,
      map_conclusions_renamedRules hrules hknown]
  rw [round_eq hrules, round, hnone, hsame]
  rfl

theorem saturate_renamedRules (hrules : ProperRules rules) (rounds : Nat)
    (hknown : ∀ f ∈ known, f.Closed) :
    saturate (renamedRules rules) rounds known = saturate rules rounds known := by
  induction rounds generalizing known with
  | zero => rfl
  | succ rounds ih =>
      have hround := round_renamedRules hrules hknown
      rw [saturate, saturate, ← hround, round_eq hrules, ok_bind, ok_bind]
      cases hadded : newFacts (renamedRules rules) known with
      | nil => rfl
      | cons f added =>
          refine ih fun g hg => (List.mem_append.mp hg).elim (hknown g) fun hg => ?_
          exact ((mem_newFacts hrules hknown).mp (hadded ▸ hg)).2.closed hrules hknown

end

namespace KnowledgeBase

/-- **Renaming the rules of a knowledge base changes nothing, and keeps them apart.** The rule with
number `i` is renamed with the suffix `_i`.  Over any ground facts it concludes the same list as the
rule that was told, so that chaining derives the same facts in the same order.  No two renamed rules
have a variable in common. -/
theorem Reached.renaming_is_inert {kb : KnowledgeBase} (hkb : kb.Reached) :
    (∀ (i : Nat) (r : Clause), kb.rules[i]? = some r →
      (renamedRules kb.rules)[i]? = some (r.standardizeApart ("_" ++ toString i)) ∧
      ∀ facts : List Atom, (∀ f ∈ facts, f.Closed) →
        (r.standardizeApart ("_" ++ toString i)).conclusions facts = r.conclusions facts) ∧
    (∀ facts : List Atom, (∀ f ∈ facts, f.Closed) → ∀ rounds,
      saturate (renamedRules kb.rules) rounds facts = saturate kb.rules rounds facts) ∧
    (renamedRules kb.rules).Pairwise fun r s => ∀ x ∈ r.vars, x ∉ s.vars := by
  have hrules := hkb.proper.base.rules
  refine ⟨fun i r hr => ⟨?_, fun facts hfacts => ?_⟩, fun facts hfacts rounds => ?_,
    disjoint_renamedRules _⟩
  · rw [getElem?_renamedRules, hr]
    rfl
  · obtain ⟨hproper, hsafe⟩ := hrules r (List.mem_of_getElem? hr)
    exact Clause.conclusions_standardizeApart hproper hsafe hfacts _
  · exact saturate_renamedRules hrules rounds hfacts

theorem renaming_is_inert_roads : ∃ kb, ofClauses roads = .ok kb ∧ kb.Reached ∧
    (∀ (i : Nat) (r : Clause), kb.rules[i]? = some r →
      (renamedRules kb.rules)[i]? = some (r.standardizeApart ("_" ++ toString i)) ∧
      ∀ facts : List Atom, (∀ f ∈ facts, f.Closed) →
        (r.standardizeApart ("_" ++ toString i)).conclusions facts = r.conclusions facts) ∧
    (∀ facts : List Atom, (∀ f ∈ facts, f.Closed) → ∀ rounds,
      saturate (renamedRules kb.rules) rounds facts = saturate kb.rules rounds facts) ∧
    (renamedRules kb.rules).Pairwise fun r s => ∀ x ∈ r.vars, x ∉ s.vars := by
  obtain ⟨kb, hkb⟩ : ∃ kb, ofClauses roads = .ok kb := ⟨_, rfl⟩
  have hreached : kb.Reached := Reached.empty.foldlM_tell (by decide) hkb
  exact ⟨kb, hkb, hreached, hreached.renaming_is_inert⟩

end KnowledgeBase

end HornPlan
