import HornPlan.Proofs.Matching
import HornPlan.Proofs.Outcomes
import Mathlib.Data.List.TakeWhile
import Mathlib.Order.Bounds.Basic

/-!
# Forward chaining computes the least closed set of facts

A fact is *derived* from others when it is the consequent of an instance of a rule whose antecedents
are among them.  A round of chaining adds the facts that are derived from the known ones and were
not known (`mem_newFacts`), whatever names the variables of a rule have been given.

`Chained` is the invariant of the rounds: the facts added so far are new, and each is derived from
those before it.  Two things follow from it.

* A set of facts that is closed under the rules and holds the asserted facts holds all of them
  (`Chained.subset`), so that a set of facts that nothing can be added to is the least of these
  sets.
* The arguments of the facts added are among `argumentTerms` (`Chained.subset_factUniverse`), so
  that there are at most `capacity` of them, and one round more than that is enough.
-/

namespace HornPlan

/-! ## Clauses -/

namespace Clause

/-- All atoms of a clause are proper. -/
def isProper (c : Clause) : Bool :=
  c.antecedents.all Atom.isProper && c.consequent.isProper

theorem isProper_iff {c : Clause} :
    c.isProper ↔ (∀ a ∈ c.antecedents, a.isProper) ∧ c.consequent.isProper := by
  rw [isProper, Bool.and_eq_true, List.all_eq_true]

theorem mem_bodyVariables {c : Clause} {x : Variable} :
    x ∈ c.bodyVariables ↔ ∃ a ∈ c.antecedents, x ∈ a.vars :=
  List.mem_flatMap

/-- Every variable of a safe consequent occurs in an antecedent. -/
theorem Safe.mem_bodyVariables {c : Clause} (hsafe : c.Safe) {x : Variable}
    (hx : x ∈ c.consequent.vars) : x ∈ c.bodyVariables := by
  unfold Safe hazard? at hsafe
  by_contra hbody
  have hunbound : x ∈ c.unbound := List.mem_filter.mpr ⟨hx, by simpa using hbody⟩
  rw [if_neg (by simpa using List.ne_nil_of_mem hunbound)] at hsafe
  split at hsafe <;> cases hsafe

/-- An argument of a safe consequent is a variable or has none. -/
theorem Safe.closed_or_var {c : Clause} (hsafe : c.Safe) (hproper : c.isProper) {t : Term}
    (ht : t ∈ c.consequent.args) : t.Closed ∨ ∃ x, t = .var x := by
  have htproper := (Atom.isProper_iff.mp (isProper_iff.mp hproper).2).2 t ht
  cases t with
  | var x => exact Or.inr ⟨x, rfl⟩
  | const c => exact Or.inl ⟨rfl, rfl⟩
  | foreign f => cases htproper
  | app f args =>
      refine Or.inl ((Term.isGround_iff_closed htproper).mp ?_)
      unfold Safe hazard? at hsafe
      split at hsafe
      · have hnone := List.find?_eq_none.mp (Option.map_eq_none_iff.mp hsafe) _ ht
        simpa [buildsTerm] using hnone
      · split at hsafe <;> cases hsafe

theorem mem_vars {c : Clause} {x : Variable} :
    x ∈ c.vars ↔ x ∈ c.consequent.vars ∨ x ∈ c.bodyVariables :=
  List.mem_append

theorem Safe.mem_vars_iff {c : Clause} (hsafe : c.Safe) {x : Variable} :
    x ∈ c.vars ↔ ∃ a ∈ c.antecedents, x ∈ a.vars := by
  rw [mem_vars, ← Clause.mem_bodyVariables]
  exact or_iff_right_of_imp hsafe.mem_bodyVariables

theorem Safe.closed_of_bind {c : Clause} (hsafe : c.Safe) {h : Variable → Term}
    (hbody : ∀ a ∈ c.antecedents, (a.bind h).Closed) {x : Variable} (hx : x ∈ c.vars) :
    (h x).Closed := by
  obtain ⟨a, ha, hxa⟩ := hsafe.mem_vars_iff.mp hx
  exact (Atom.closed_bind.mp (hbody a ha)).2 x hxa

theorem Safe.closed_consequent {c : Clause} (hsafe : c.Safe) (hproper : c.isProper)
    {h : Variable → Term} (hbody : ∀ a ∈ c.antecedents, (a.bind h).Closed) :
    (c.consequent.bind h).Closed :=
  Atom.closed_bind.mpr ⟨(isProper_iff.mp hproper).2, fun _ hx =>
    hsafe.closed_of_bind hbody (mem_vars.mpr (Or.inl hx))⟩

/-- A safe fact has no variables, since no antecedent could bind them. -/
theorem Safe.vars_of_isFact {c : Clause} (hsafe : c.Safe) (hfact : c.isFact) : c.vars = [] := by
  rw [List.eq_nil_iff_forall_not_mem]
  intro x hx
  obtain ⟨a, ha, -⟩ := hsafe.mem_vars_iff.mp hx
  rw [List.isEmpty_iff.mp hfact] at ha
  exact absurd ha List.not_mem_nil

theorem Safe.closed_of_isFact {c : Clause} (hsafe : c.Safe) (hproper : c.isProper)
    (hfact : c.isFact) :
    c.consequent.Closed := by
  refine ⟨(isProper_iff.mp hproper).2, List.eq_nil_iff_forall_not_mem.mpr fun x hx => ?_⟩
  have hmem : x ∈ c.vars := mem_vars.mpr (Or.inl hx)
  rw [hsafe.vars_of_isFact hfact] at hmem
  exact absurd hmem List.not_mem_nil

/-! ## Conclusions -/

variable {c : Clause} {known : List Atom}

/-- **A rule concludes the instances of its consequent whose antecedents are known.** -/
theorem mem_conclusions (hproper : c.isProper)
    (hvars : ∀ x ∈ c.consequent.vars, ∃ a ∈ c.antecedents, x ∈ a.vars)
    (hknown : ∀ f ∈ known, f.Closed) {f : Atom} :
    f ∈ c.conclusions known ↔
      ∃ h, (∀ a ∈ c.antecedents, a.bind h ∈ known) ∧ c.consequent.bind h = f := by
  have hantecedents := (isProper_iff.mp hproper).1
  rw [conclusions, List.mem_map]
  constructor
  · rintro ⟨θ, hθ, rfl⟩
    have hsat := satisfies_of_mem_satisfy hknown hantecedents Substitution.closed_empty hθ
    exact ⟨θ.value, (hsat.solvedBy _ hsat.closed.solvedBy_value).2,
      (hsat.closed.applyAtom_eq c.consequent).symm⟩
  · rintro ⟨h, hmem, rfl⟩
    obtain ⟨θ, hθ, hsolved⟩ := exists_mem_satisfy hknown hantecedents Substitution.closed_empty
      (Substitution.solvedBy_empty h) hmem
    have hsat := satisfies_of_mem_satisfy hknown hantecedents Substitution.closed_empty hθ
    refine ⟨θ, hθ, ?_⟩
    rw [hsat.closed.applyAtom_eq]
    -- what is matched binds every variable of the consequent
    refine Atom.bind_congr ?_
    intro x hx
    obtain ⟨a, ha, hxa⟩ := hvars x hx
    exact hsat.closed.value_eq hsolved (hsat.bound a ha x hxa)

theorem withSuffix_injective (suffix : String) :
    Function.Injective fun x : Variable => x.withSuffix suffix := by
  intro x y h
  have hname : x.name ++ suffix = y.name ++ suffix := congrArg Variable.name h
  exact Variable.eq_of_name_eq ((String.append_left_inj suffix).mp hname)

theorem isProper_standardizeApart (hproper : c.isProper) (suffix : String) :
    (c.standardizeApart suffix).isProper := by
  obtain ⟨hantecedents, hconsequent⟩ := isProper_iff.mp hproper
  refine isProper_iff.mpr ⟨?_, Atom.isProper_bind.mpr ⟨hconsequent, fun _ _ => rfl⟩⟩
  intro b hb
  obtain ⟨a, ha, rfl⟩ := List.mem_map.mp hb
  exact Atom.isProper_bind.mpr ⟨hantecedents a ha, fun _ _ => rfl⟩

/-- Other names for the variables of a rule do not change what it concludes. -/
theorem mem_conclusions_standardizeApart (hproper : c.isProper) (hsafe : c.Safe)
    (hknown : ∀ f ∈ known, f.Closed) (suffix : String) {f : Atom} :
    f ∈ (c.standardizeApart suffix).conclusions known ↔
      ∃ h, (∀ a ∈ c.antecedents, a.bind h ∈ known) ∧ c.consequent.bind h = f := by
  rw [mem_conclusions (isProper_standardizeApart hproper suffix) ?_ hknown]
  · constructor
    · rintro ⟨h, hmem, rfl⟩
      refine ⟨fun x => h (x.withSuffix suffix), ?_, ?_⟩
      · intro a ha
        have hrenamed := hmem _ (List.mem_map_of_mem ha)
        rwa [Atom.bind_bind] at hrenamed
      · exact (Atom.bind_bind (fun x => .var (x.withSuffix suffix)) h c.consequent).symm
    · rintro ⟨h, hmem, rfl⟩
      -- read an assignment for the old names as one for the new names
      have hback : ∀ a : Atom, (a.bind fun x => .var (x.withSuffix suffix)).bind
          (Function.extend (fun x : Variable => x.withSuffix suffix) h Term.var) = a.bind h :=
        fun a => by
          rw [Atom.bind_bind]
          exact Atom.bind_congr fun x _ => (withSuffix_injective suffix).extend_apply h Term.var x
      refine ⟨_, ?_, hback c.consequent⟩
      intro b hb
      obtain ⟨a, ha, rfl⟩ := List.mem_map.mp hb
      rw [hback]
      exact hmem a ha
  · intro y hy
    obtain ⟨x, hx, hy⟩ := Atom.mem_vars_bind.mp hy
    obtain ⟨a, ha, hxa⟩ := mem_bodyVariables.mp (hsafe.mem_bodyVariables hx)
    exact ⟨_, List.mem_map_of_mem ha, Atom.mem_vars_bind.mpr ⟨x, hxa, hy⟩⟩

theorem misfires_eq_false (hproper : c.isProper) (known : List Atom) :
    c.misfires known = false := by
  obtain ⟨hantecedents, hconsequent⟩ := isProper_iff.mp hproper
  have hall : c.antecedents.takeWhile (·.predicate.isIndexable) = c.antecedents := by
    refine List.takeWhile_eq_self_iff.mpr ?_
    intro a ha
    have := Term.isIndexable_of_isProper (hantecedents a ha)
    simp only [Atom.toTerm, Term.isIndexable, Bool.and_eq_true] at this
    exact this.1
  simp [misfires, hall, Atom.isIndexable, Term.isIndexable_of_isProper hconsequent]

end Clause

/-! ## Derivations -/

/-- A fact is the consequent of a ground instance of a rule whose antecedents are known. -/
def Derives (rules : List Clause) (known : List Atom) (f : Atom) : Prop :=
  ∃ r ∈ rules, ∃ h : Variable → Term, (∀ x ∈ r.vars, (h x).isGround) ∧
    (∀ a ∈ r.antecedents, a.bind h ∈ known) ∧ r.consequent.bind h = f

/-- A set of facts is closed under rules: with the antecedents of a ground instance it has the
consequent. -/
def ClosedUnder (rules : List Clause) (S : Set Atom) : Prop :=
  ∀ r ∈ rules, ∀ h : Variable → Term, (∀ x ∈ r.vars, (h x).isGround) →
    (∀ a ∈ r.antecedents, a.bind h ∈ S) → r.consequent.bind h ∈ S

/-- Rules that chaining can be trusted with. -/
def ProperRules (rules : List Clause) : Prop :=
  ∀ r ∈ rules, r.isProper ∧ r.Safe

theorem Derives.mono {rules : List Clause} {known more : List Atom} {f : Atom}
    (h : Derives rules known f) (hsub : known ⊆ more) : Derives rules more f := by
  obtain ⟨r, hr, g, hg, hmem, hf⟩ := h
  exact ⟨r, hr, g, hg, fun a ha => hsub (hmem a ha), hf⟩

theorem Derives.mem {rules : List Clause} {known : List Atom} {f : Atom} (h : Derives rules known f)
    {S : Set Atom} (hS : ClosedUnder rules S) (hknown : ∀ g ∈ known, g ∈ S) : f ∈ S := by
  obtain ⟨r, hr, g, hg, hmem, rfl⟩ := h
  exact hS r hr g hg fun a ha => hknown _ (hmem a ha)

section

variable {rules : List Clause} {known : List Atom}

theorem derives_iff (hrules : ProperRules rules) (hknown : ∀ f ∈ known, f.Closed) {f : Atom} :
    Derives rules known f ↔ ∃ r ∈ rules, ∃ h : Variable → Term,
      (∀ a ∈ r.antecedents, a.bind h ∈ known) ∧ r.consequent.bind h = f := by
  refine exists_congr fun r => and_congr_right fun hr => exists_congr ?_
  intro h
  refine ⟨fun ⟨_, hinstance⟩ => hinstance, fun hinstance => ⟨?_, hinstance⟩⟩
  intro x hx
  have hclosed := (hrules r hr).2.closed_of_bind (fun a ha => hknown _ (hinstance.1 a ha)) hx
  exact (Term.isGround_iff_closed hclosed.1).mpr hclosed

theorem Derives.closed (hrules : ProperRules rules) (hknown : ∀ f ∈ known, f.Closed) {f : Atom}
    (h : Derives rules known f) : f.Closed := by
  obtain ⟨r, hr, g, -, hmem, rfl⟩ := h
  exact (hrules r hr).2.closed_consequent (hrules r hr).1 fun a ha => hknown _ (hmem a ha)

/-! ## Rounds -/

theorem mem_renamedRules {c : Clause} (hc : c ∈ renamedRules rules) :
    ∃ r ∈ rules, ∃ suffix, c = r.standardizeApart suffix := by
  obtain ⟨⟨r, i⟩, hri, rfl⟩ := List.mem_map.mp hc
  exact ⟨r, List.fst_mem_of_mem_zipIdx hri, _, rfl⟩

theorem exists_mem_renamedRules {r : Clause} (hr : r ∈ rules) :
    ∃ suffix, r.standardizeApart suffix ∈ renamedRules rules := by
  obtain ⟨i, hi, rfl⟩ := List.mem_iff_getElem.mp hr
  exact ⟨_, List.mem_map_of_mem (List.mk_mem_zipIdx_iff_getElem?.mpr (List.getElem?_eq_getElem hi))⟩

theorem mem_flatMap_conclusions (hrules : ProperRules rules) (hknown : ∀ f ∈ known, f.Closed)
    {f : Atom} : f ∈ (renamedRules rules).flatMap (·.conclusions known) ↔
    Derives rules known f := by
  rw [derives_iff hrules hknown, List.mem_flatMap]
  constructor
  · rintro ⟨c, hc, hf⟩
    obtain ⟨r, hr, suffix, rfl⟩ := mem_renamedRules hc
    obtain ⟨hproper, hsafe⟩ := hrules r hr
    exact ⟨r, hr, (Clause.mem_conclusions_standardizeApart hproper hsafe hknown suffix).mp hf⟩
  · rintro ⟨r, hr, hf⟩
    obtain ⟨hproper, hsafe⟩ := hrules r hr
    obtain ⟨suffix, hmem⟩ := exists_mem_renamedRules hr
    exact ⟨_, hmem, (Clause.mem_conclusions_standardizeApart hproper hsafe hknown suffix).mpr hf⟩

/-- **A round adds the facts that are derived from the known ones and were not known.** -/
theorem mem_newFacts (hrules : ProperRules rules) (hknown : ∀ f ∈ known, f.Closed) {f : Atom} :
    f ∈ newFacts (renamedRules rules) known ↔ f ∉ known ∧ Derives rules known f := by
  have hproper : ∀ g ∈ (renamedRules rules).flatMap (·.conclusions known), g.isProper := fun g hg =>
    (((mem_flatMap_conclusions hrules hknown).mp hg).closed hrules hknown).1
  rw [newFacts_eq_eraseDups, Atom.mem_eraseDups_iff fun g hg => hproper g (List.mem_filter.mp hg).1,
    List.mem_filter, mem_flatMap_conclusions hrules hknown, and_comm]
  refine and_congr_left ?_
  intro hf
  rw [Bool.not_eq_true', Bool.eq_false_iff, ne_eq,
    Atom.contains_iff_mem (hf.closed hrules hknown).1]

theorem nodup_newFacts (rules : List Clause) (known : List Atom) :
    (newFacts rules known).Nodup := by
  rw [newFacts_eq_eraseDups]
  exact nodup_eraseDups _

theorem round_eq (hrules : ProperRules rules) (known : List Atom) :
    round (renamedRules rules) known = .ok (newFacts (renamedRules rules) known) := by
  refine if_neg ?_
  intro hany
  obtain ⟨c, hc, hmisfires⟩ := List.any_eq_true.mp hany
  obtain ⟨r, hr, suffix, rfl⟩ := mem_renamedRules hc
  rw [Clause.misfires_eq_false (Clause.isProper_standardizeApart (hrules r hr).1 suffix)]
    at hmisfires
  cases hmisfires

/-! ## The invariant of the rounds -/

/-- The facts added to asserted ones: all are closed and new, and each is derived from those before
it. -/
structure Chained (asserted : List Atom) (rules : List Clause) (derived : List Atom) : Prop where
  closed : ∀ f ∈ asserted ++ derived, f.Closed
  nodup : (asserted ++ derived).Nodup
  derives : ∀ before f after, derived = before ++ f :: after → Derives rules (asserted ++ before) f

variable {asserted derived : List Atom}

theorem chained_nil (hclosed : ∀ f ∈ asserted, f.Closed) (hnodup : asserted.Nodup) :
    Chained asserted rules [] :=
  ⟨by simpa using hclosed, by simpa using hnodup, fun _ _ _ h => by simp at h⟩

/-- A round keeps the invariant. -/
theorem Chained.append_newFacts (hrules : ProperRules rules) (h : Chained asserted rules derived) :
    Chained asserted rules (derived ++ newFacts (renamedRules rules) (asserted ++ derived)) := by
  have hnew : ∀ f, f ∈ newFacts (renamedRules rules) (asserted ++ derived) →
      f ∉ asserted ++ derived ∧ Derives rules (asserted ++ derived) f :=
    fun f => (mem_newFacts hrules h.closed).mp
  refine ⟨?_, ?_, ?_⟩
  · intro f hf
    rw [← List.append_assoc, List.mem_append] at hf
    exact hf.elim (h.closed f) fun hf => (hnew f hf).2.closed hrules h.closed
  · rw [← List.append_assoc]
    exact h.nodup.append (nodup_newFacts _ _) fun f hf hmem => (hnew f hmem).1 hf
  · intro before f after hsplit
    rcases List.append_eq_append_iff.mp hsplit with ⟨middle, rfl, hadded⟩ | ⟨middle, hold, hrest⟩
    · -- the fact is one of those added
      have hmem : f ∈ newFacts (renamedRules rules) (asserted ++ derived) := by simp [hadded]
      refine (hnew f hmem).2.mono ?_
      rw [← List.append_assoc]
      exact List.subset_append_left _ _
    · cases middle with
      | nil =>
          have hmem : f ∈ newFacts (renamedRules rules) (asserted ++ derived) := by
            rw [List.nil_append] at hrest
            simp [← hrest]
          refine (hnew f hmem).2.mono ?_
          simp [hold]
      | cons g middle =>
          obtain ⟨rfl, -⟩ := List.cons.inj hrest
          exact h.derives before f middle hold

/-- **A closed set of facts that holds the asserted ones holds all that is derived.** -/
theorem Chained.subset (h : Chained asserted rules derived) {S : Set Atom}
    (hS : ClosedUnder rules S) (hasserted : ∀ f ∈ asserted, f ∈ S) :
    ∀ f ∈ asserted ++ derived, f ∈ S := by
  induction derived using List.reverseRecOn with
  | nil => simpa using hasserted
  | append_singleton derived last ih =>
      have hprefix : Chained asserted rules derived := by
        refine ⟨fun f hf => h.closed f ?_, ?_, ?_⟩
        · rw [← List.append_assoc]
          exact List.mem_append_left _ hf
        · have hnodup := h.nodup
          rw [← List.append_assoc] at hnodup
          exact hnodup.of_append_left
        · intro before f after hsplit
          exact h.derives before f (after ++ [last]) (by simp [hsplit])
      intro f hf
      rw [← List.append_assoc, List.mem_append, List.mem_singleton] at hf
      rcases hf with hf | rfl
      · exact ih hprefix f hf
      · exact (h.derives derived f [] rfl).mem hS (ih hprefix)

/-! ## The number of rounds -/

/-- The facts whose predicate is that of a consequent and whose arguments are among
`argumentTerms`. -/
def factUniverse (facts : List Atom) (rules : List Clause) : List Atom :=
  rules.flatMap fun r =>
    (tuples (argumentTerms facts rules) r.consequent.args.length).map
      (Atom.mk r.consequent.predicate)

theorem length_factUniverse (facts : List Atom) (rules : List Clause) :
    (factUniverse facts rules).length = capacity facts rules := by
  have hsum : ∀ (ts : List Term) (rs : List Clause),
      (rs.flatMap fun r => (tuples ts r.consequent.args.length).map
        (Atom.mk r.consequent.predicate)).length
        = rs.foldr (fun r bound => Nat.pow ts.length r.consequent.args.length + bound) 0 := by
    intro ts rs
    induction rs with
    | nil => rfl
    | cons r rs ih =>
        rw [List.flatMap_cons, List.length_append, ih, List.length_map, length_tuples]
        rfl
  exact hsum (argumentTerms facts rules) rules

/-- The facts and rules that chaining starts from. -/
structure Base (facts : List Atom) (rules : List Clause) : Prop where
  closed : ∀ f ∈ facts, f.Closed
  rules : ProperRules rules

variable {facts : List Atom}

theorem mem_argumentTerms (hbase : Base facts rules) {t : Term} : t ∈ argumentTerms facts rules ↔
    ∃ a ∈ facts ++ rules.map (·.consequent), ∃ u ∈ a.args, t ∈ u.subterms := by
  have hproper : ∀ a ∈ facts ++ rules.map (·.consequent), a.isProper := by
    intro a ha
    rcases List.mem_append.mp ha with ha | ha
    · exact (hbase.closed a ha).1
    · obtain ⟨r, hr, rfl⟩ := List.mem_map.mp ha
      exact (Clause.isProper_iff.mp (hbase.rules r hr).1).2
  rw [argumentTerms, distinctBy_eq_eraseDups Term.code fun _ _ => Term.beq_iff_code_eq,
    mem_eraseDups_iff]
  · simp only [List.mem_flatMap, Term.subtermsList_eq_flatMap]
  · intro b hb c hbc
    simp only [List.mem_flatMap, Term.subtermsList_eq_flatMap] at hb
    obtain ⟨a, ha, u, hu, hbu⟩ := hb
    have huproper := (Atom.isProper_iff.mp (hproper a ha)).2 u hu
    exact Term.eq_of_beq_of_isProper (Term.isProper_of_mem_subterms huproper hbu) hbc

theorem mem_argumentTerms_of_mem_subterms (hbase : Base facts rules) {s t : Term}
    (hs : s ∈ t.subterms) (ht : t ∈ argumentTerms facts rules) : s ∈ argumentTerms facts rules := by
  obtain ⟨a, ha, u, hu, htu⟩ := (mem_argumentTerms hbase).mp ht
  exact (mem_argumentTerms hbase).mpr ⟨a, ha, u, hu, Term.mem_subterms_trans hs htu⟩

/-- No rule makes up an argument. -/
theorem closedUnder_argumentTerms (hbase : Base facts rules) :
    ClosedUnder rules {f | ∀ t ∈ f.args, t ∈ argumentTerms facts rules} := by
  intro r hr h _ hbody t ht
  obtain ⟨u, hu, rfl⟩ := List.mem_map.mp ht
  obtain ⟨hproper, hsafe⟩ := hbase.rules r hr
  rcases hsafe.closed_or_var hproper hu with hclosed | ⟨x, rfl⟩
  · rw [Term.Closed.bind_eq hclosed]
    refine (mem_argumentTerms hbase).mpr ⟨r.consequent, ?_, u, hu, Term.mem_subterms_self u⟩
    exact List.mem_append_right _ (List.mem_map_of_mem hr)
  · -- the variable stands in an antecedent, so its value is part of an argument of a fact
    have hx : x ∈ r.consequent.vars := Atom.mem_vars.mpr ⟨.var x, hu, List.mem_singleton_self x⟩
    obtain ⟨a, ha, hxa⟩ := Clause.mem_bodyVariables.mp (hsafe.mem_bodyVariables hx)
    obtain ⟨v, hv, hxv⟩ := Atom.mem_vars.mp hxa
    exact mem_argumentTerms_of_mem_subterms hbase (Term.mem_subterms_bind hxv)
      (hbody a ha _ (List.mem_map_of_mem hv))

theorem Chained.subset_factUniverse (hbase : Base facts rules)
    (h : Chained facts.eraseDups rules derived) : derived ⊆ factUniverse facts rules := by
  have hargs := h.subset (closedUnder_argumentTerms hbase) fun f hf t ht =>
    (mem_argumentTerms hbase).mpr
      ⟨f, List.mem_append_left _ (mem_of_mem_eraseDups hf), t, ht, Term.mem_subterms_self t⟩
  intro f hf
  obtain ⟨before, after, hsplit⟩ := List.append_of_mem hf
  obtain ⟨r, hr, g, -, -, rfl⟩ := h.derives before f after hsplit
  refine List.mem_flatMap.mpr ⟨r, hr, List.mem_map.mpr ⟨_, ?_, rfl⟩⟩
  have htuple := mem_tuples (hargs _ (List.mem_append_right _ hf))
  simpa [Atom.bind] using htuple

theorem Chained.length_le (hbase : Base facts rules) (h : Chained facts.eraseDups rules derived) :
    derived.length ≤ capacity facts rules := by
  rw [← length_factUniverse]
  exact length_le_of_nodup_of_subset h.nodup.of_append_right (h.subset_factUniverse hbase)

/-! ## Saturation -/

/-- Chaining ends with a round that adds nothing, unless every round has added a fact. -/
theorem saturate_spec (hrules : ProperRules rules) (h : Chained asserted rules derived)
    (rounds : Nat) : ∃ all, saturate (renamedRules rules) rounds (asserted ++ derived)
        = .ok (asserted ++ all) ∧ derived <+: all ∧ Chained asserted rules all ∧
      (newFacts (renamedRules rules) (asserted ++ all) = [] ∨
      derived.length + rounds ≤ all.length) := by
  induction rounds generalizing derived with
  | zero => exact ⟨derived, rfl, List.prefix_refl _, h, Or.inr (Nat.le_refl _)⟩
  | succ rounds ih =>
      rw [saturate, round_eq hrules, ok_bind]
      cases hnew : newFacts (renamedRules rules) (asserted ++ derived) with
      | nil => exact ⟨derived, rfl, List.prefix_refl _, h, Or.inl hnew⟩
      | cons f added =>
          have hnext := h.append_newFacts hrules
          rw [hnew] at hnext
          obtain ⟨all, hsaturate, hprefix, hchained, hend⟩ := ih hnext
          refine ⟨all, ?_, (List.prefix_append _ _).trans hprefix, hchained,
            hend.imp_right ?_⟩
          · rw [← hsaturate, ← List.append_assoc]
          · intro hlength
            rw [List.length_append, List.length_cons] at hlength
            omega

theorem chained_nil_eraseDups (hbase : Base facts rules) : Chained facts.eraseDups rules [] :=
  chained_nil (fun f hf => hbase.closed f (mem_of_mem_eraseDups hf)) (nodup_eraseDups _)

theorem assertedFacts_eq (hclosed : ∀ f ∈ facts, f.Closed) :
    assertedFacts facts = .ok facts.eraseDups := by
  have hindexable : facts.all Atom.isIndexable :=
    List.all_eq_true.mpr fun f hf => Term.isIndexable_of_isProper (hclosed f hf).1
  rw [assertedFacts, if_pos hindexable,
    distinctBy_eq_eraseDups Atom.code fun _ _ => Atom.beq_iff_code_eq]

/-- What forward chaining is to find: the asserted facts, each once, then facts derived from those
before them, and together the least closed set of facts. -/
structure IsClosure (asserted : List Atom) (rules : List Clause) (facts : List Atom) : Prop where
  nodup : facts.Nodup
  ground : ∀ f ∈ facts, f.isGround
  least : IsLeast {S : Set Atom | (∀ f ∈ asserted, f ∈ S) ∧ ClosedUnder rules S} {f | f ∈ facts}
  derivation : ∃ derived, facts = asserted.eraseDups ++ derived ∧
    ∀ before f after, derived = before ++ f :: after →
    Derives rules (asserted.eraseDups ++ before) f

theorem IsClosure.subset {all : List Atom} (h : IsClosure facts rules all) {S : Set Atom}
    (hS : ClosedUnder rules S) (hasserted : ∀ f ∈ facts, f ∈ S) : ∀ f ∈ all, f ∈ S :=
  fun _ hf => h.least.2 ⟨hasserted, hS⟩ hf

/-- **Chaining finds the closure.** -/
theorem exists_closureOf (hbase : Base facts rules) :
    ∃ all, closureOf facts rules = .ok all ∧ (∀ f ∈ all, f.Closed) ∧ IsClosure facts rules all := by
  have hmem : ∀ f, f ∈ facts.eraseDups ↔ f ∈ facts := fun f =>
    Atom.mem_eraseDups_iff fun g hg => (hbase.closed g hg).1
  obtain ⟨derived, hsaturate, -, hchained, hend⟩ :=
    saturate_spec hbase.rules (chained_nil_eraseDups hbase) (capacity facts rules + 1)
  -- the rounds are enough to come to an end, since at most `capacity` facts can be derived
  have hfixed : newFacts (renamedRules rules) (facts.eraseDups ++ derived) = [] := by
    refine hend.resolve_right ?_
    intro hlength
    have hle := hchained.length_le hbase
    rw [List.length_nil] at hlength
    omega
  refine ⟨facts.eraseDups ++ derived, ?_, hchained.closed, hchained.nodup, ?_, ⟨⟨?_, ?_⟩, ?_⟩,
    derived, rfl, hchained.derives⟩
  · rw [closureOf, assertedFacts_eq hbase.closed, ok_bind, ← hsaturate, List.append_nil]
  · intro f hf
    exact (Atom.isGround_iff_closed (hchained.closed f hf).1).mpr (hchained.closed f hf)
  · intro f hf
    exact List.mem_append_left _ ((hmem f).mpr hf)
  · -- a consequent that is missing would have been added
    intro r hr h hground hbody
    by_contra hmissing
    have hadded := (mem_newFacts hbase.rules hchained.closed).mpr
      ⟨hmissing, r, hr, h, hground, hbody, rfl⟩
    rw [hfixed] at hadded
    exact absurd hadded List.not_mem_nil
  · intro S ⟨hasserted, hS⟩ f hf
    exact hchained.subset hS (fun g hg => hasserted g ((hmem g).mp hg)) f hf

/-! ## Looking for an answer on the way -/

/-- Chaining that finds no answer ends as chaining does. -/
theorem saturate_of_chainUntilAnswer {rules : List Clause} {goals : List Atom} {rounds : Nat}
    {known all : List Atom} (h : chainUntilAnswer rules goals rounds known = .ok (.inr all)) :
    saturate rules rounds known = .ok all := by
  induction rounds generalizing known with
  | zero =>
      rw [chainUntilAnswer] at h
      split at h
      · cases h
      · cases h
        rfl
  | succ rounds ih =>
      rw [chainUntilAnswer] at h
      split at h
      · cases h
      · obtain ⟨added, hround, h⟩ := bind_eq_ok.mp h
        rw [saturate, hround, ok_bind]
        cases added with
        | nil =>
            cases h
            rfl
        | cons f added => exact ih h

theorem firstAnswer?_isSome_iff {goals : List Atom} (hknown : ∀ f ∈ known, f.Closed)
    (hgoals : ∀ g ∈ goals, g.isProper) :
    (firstAnswer? known goals).isSome ↔ ∃ h : Variable → Term, ∀ g ∈ goals, g.bind h ∈ known := by
  rw [firstAnswer?, Option.isSome_map, firstMatch?_isSome_iff hknown hgoals]

theorem chainUntilAnswer_of_firstAnswer? {rules : List Clause} {goals known : List Atom}
    {answer : Substitution} (h : firstAnswer? known goals = some answer) (rounds : Nat) :
    chainUntilAnswer rules goals rounds known = .ok (.inl answer) := by
  cases rounds <;> simp only [chainUntilAnswer, h]

/-- What is known stays known, so an answer from it is an answer at the end. -/
theorem Chained.exists_of_firstAnswer? (hrules : ProperRules rules)
    (h : Chained asserted rules derived) {goals : List Atom} (hgoals : ∀ g ∈ goals, g.isProper)
    {rounds : Nat} {all : List Atom}
    (hsaturate : saturate (renamedRules rules) rounds (asserted ++ derived) = .ok all)
    (hfirst : (firstAnswer? (asserted ++ derived) goals).isSome) :
    ∃ g : Variable → Term, ∀ goal ∈ goals, goal.bind g ∈ all := by
  obtain ⟨more, hsaturated, hprefix, -, -⟩ := saturate_spec hrules h rounds
  obtain rfl := Except.ok.inj (hsaturate.symm.trans hsaturated)
  obtain ⟨g, hg⟩ := (firstAnswer?_isSome_iff h.closed hgoals).mp hfirst
  have hsub : asserted ++ derived ⊆ asserted ++ more :=
    ((List.prefix_append_right_inj asserted).mpr hprefix).subset
  exact ⟨g, fun goal hgoal => hsub (hg goal hgoal)⟩

/-- **An answer is found on the way exactly when there is one at the end.** -/
theorem chainUntilAnswer_spec (hrules : ProperRules rules) (h : Chained asserted rules derived)
    {goals : List Atom} (hgoals : ∀ g ∈ goals, g.isProper) {rounds : Nat} {all : List Atom}
    (hsaturate : saturate (renamedRules rules) rounds (asserted ++ derived) = .ok all) :
    ∃ outcome,
    chainUntilAnswer (renamedRules rules) goals rounds (asserted ++ derived) = .ok outcome ∧
      (outcome.isLeft ↔ ∃ g : Variable → Term, ∀ goal ∈ goals, goal.bind g ∈ all) := by
  -- induction on the rounds, with the invariant `Chained` for what has been derived so far
  induction rounds generalizing derived with
  | zero =>
      have hmatch := firstAnswer?_isSome_iff h.closed hgoals
      obtain rfl := Except.ok.inj hsaturate
      cases hfirst : firstAnswer? (asserted ++ derived) goals with
      | some answer =>
          refine ⟨_, chainUntilAnswer_of_firstAnswer? hfirst 0, iff_of_true rfl (hmatch.mp ?_)⟩
          rw [hfirst, Option.isSome_some]
      | none =>
          refine ⟨.inr (asserted ++ derived), by simp only [chainUntilAnswer, hfirst], ?_⟩
          rw [← hmatch, hfirst]
          rfl
  | succ rounds ih =>
      cases hfirst : firstAnswer? (asserted ++ derived) goals with
      | some answer =>
          refine ⟨_, chainUntilAnswer_of_firstAnswer? hfirst _, iff_of_true rfl ?_⟩
          exact h.exists_of_firstAnswer? hrules hgoals hsaturate
            (by rw [hfirst, Option.isSome_some])
      | none =>
          rw [saturate, round_eq hrules, ok_bind] at hsaturate
          simp only [chainUntilAnswer, hfirst, round_eq hrules, ok_bind]
          have hnext := h.append_newFacts hrules
          cases hnew : newFacts (renamedRules rules) (asserted ++ derived) with
          | nil =>
              rw [hnew] at hsaturate
              obtain rfl := Except.ok.inj hsaturate
              refine ⟨_, rfl, ?_⟩
              rw [← firstAnswer?_isSome_iff h.closed hgoals, hfirst]
              rfl
          | cons f added =>
              rw [hnew] at hsaturate hnext
              simp only [List.append_assoc] at hsaturate ⊢
              exact ih hnext hsaturate

end

end HornPlan
