import HornPlan.Proofs.Applications
import HornPlan.Proofs.Calls
import HornPlan.Proofs.Documents
import HornPlan.Proofs.Groundings
import HornPlan.Worlds.Roads

/-!
# Grounding an action under any substitution

An action is grounded by putting terms in the place of its variables and checking the outcome as a
new schema is checked.  Of the rules that a schema has to keep, an instance keeps all but one by
itself:

* each predicate keeps its number of arguments, since it had one in the schema (`Schema.Uniform`);
* every variable that is left in an atom is left of a parameter, since that is where it comes from
  (`fault?_eq_none_of_isInstance`);
* a parameter may be repeated, when two of them become the same variable.

So where every parameter becomes a variable or a constant, it is the variables left of them that
decide (`ground_exact`): without any the instance is returned, with distinct ones grounding fails
for leaving them open, and with a repeated one it fails for that.  The last case is not what is said
of grounding (`not_forall_leaves_open`).
-/

namespace HornPlan

/-! ## Atoms of a schema -/

namespace Schema

theorem lookup_append_singleton {seen : List (Symbol × Nat)} {f g : Symbol} (hf : f.isText)
    {n m : Nat} :
    (seen ++ [(f, n)]).lookup g = some m ↔ seen.lookup g = some m ∨ seen.lookup g = none ∧
    g = f ∧ n = m := by
  have hbeq : (g == f) = true ↔ g = f := Symbol.beq_iff_eq_of_isText (Or.inr hf)
  rw [List.lookup_append, Option.or_eq_some_iff]
  rw [List.lookup_cons, List.lookup_nil]
  refine or_congr_right (and_congr_right fun _ => ?_)
  split
  · rename_i h
    simp [hbeq.mp h]
  · rename_i h
    simp [← hbeq, h]

/-- Each predicate has one number of arguments, in some atoms and in what was seen before. -/
structure Uniform (seen : List (Symbol × Nat)) (as : List Atom) : Prop where
  seen : ∀ a ∈ as, ∀ n, seen.lookup a.predicate = some n → n = a.args.length
  same : ∀ a ∈ as, ∀ b ∈ as, a.predicate = b.predicate → a.args.length = b.args.length

/-- One atom more fits in when the others fit in after it has been seen. -/
theorem uniform_cons_iff {seen : List (Symbol × Nat)} {a : Atom} {as : List Atom}
    (ha : a.predicate.isText) : Uniform seen (a :: as) ↔
      (∀ n, seen.lookup a.predicate = some n → n = a.args.length) ∧
        Uniform (seen ++ [(a.predicate, a.args.length)]) as := by
  constructor
  · rintro ⟨hseen, hsame⟩
    refine ⟨hseen a List.mem_cons_self, ?_, ?_⟩
    · intro b hb n hn
      rcases (lookup_append_singleton ha).mp hn with hn | ⟨-, heq, rfl⟩
      · exact hseen b (List.mem_cons_of_mem _ hb) n hn
      · exact hsame a List.mem_cons_self b (List.mem_cons_of_mem _ hb) heq.symm
    · intro b hb c hc
      exact hsame b (List.mem_cons_of_mem _ hb) c (List.mem_cons_of_mem _ hc)
  · rintro ⟨hfirst, hseen, hsame⟩
    -- an atom with the predicate of the first one has been seen, or it is seen now
    have hlength : ∀ b ∈ as, b.predicate = a.predicate → b.args.length = a.args.length := by
      intro b hb heq
      cases hb' : seen.lookup b.predicate with
      | none =>
          refine (hseen b hb _ ?_).symm
          exact (lookup_append_singleton ha).mpr (Or.inr ⟨hb', heq, rfl⟩)
      | some n =>
          rw [← hseen b hb n ((lookup_append_singleton ha).mpr (Or.inl hb'))]
          exact hfirst n (heq ▸ hb')
    refine ⟨List.forall_mem_cons.mpr ⟨hfirst, ?_⟩,
      List.forall_mem_cons.mpr ⟨List.forall_mem_cons.mpr ⟨fun _ => rfl, ?_⟩, ?_⟩⟩
    · intro b hb n hn
      exact hseen b hb n ((lookup_append_singleton ha).mpr (Or.inl hn))
    · intro b hb heq
      exact (hlength b hb heq.symm).symm
    · intro b hb
      exact List.forall_mem_cons.mpr ⟨hlength b hb, hsame b hb⟩

/-- Nothing is wrong with atoms when their variables are parameters and their predicates are
uniform. -/
theorem atomFault?_eq_none_iff {f : Symbol} {ps : List Variable} {seen : List (Symbol × Nat)}
    {as : List Atom} (has : ∀ a ∈ as, a.predicate.isText) : atomFault? f ps seen as = none ↔
      (∀ a ∈ as, ∀ x ∈ a.vars, x ∈ ps) ∧ Uniform seen as := by
  induction as generalizing seen with
  | nil => exact iff_of_true rfl ⟨by simp, ⟨by simp, by simp⟩⟩
  | cons a as ih =>
      obtain ⟨ha, hrest⟩ := List.forall_mem_cons.mp has
      have hfirst : (seen.lookup a.predicate).getD a.args.length = a.args.length ↔
          ∀ n, seen.lookup a.predicate = some n → n = a.args.length := by
        cases seen.lookup a.predicate <;> simp
      have hstrays : (a.vars.filter fun x => !ps.contains x).isEmpty ↔ ∀ x ∈ a.vars, x ∈ ps := by
        simp
      rw [uniform_cons_iff ha, List.forall_mem_cons, ← hfirst, ← hstrays, atomFault?]
      split_ifs with hclash hstray
      · exact iff_of_false id fun h => hclash h.2.1
      · refine iff_of_false id fun h => ?_
        rw [h.1.1] at hstray
        cases hstray
      · rw [ih hrest]
        have hempty : (a.vars.filter fun x => !ps.contains x).isEmpty := by simpa using hstray
        exact ⟨fun h => ⟨⟨hempty, h.1⟩, not_not.mp hclash, h.2⟩, fun h => ⟨h.1.2, h.2.2⟩⟩

end Schema

theorem Schema.IsInstance.exists_of_mem_atoms {s g : Schema} {h : Variable → Term}
    (hg : s.IsInstance h g) {c : Atom} (hc : c ∈ g.atoms) : ∃ b ∈ s.atoms, b.bind h = c := by
  have hlist : ∀ as : List Atom, c ∈ (as.map (·.bind h)).eraseDups → ∃ b ∈ as, b.bind h = c :=
    fun as hmem => List.mem_map.mp (mem_of_mem_eraseDups hmem)
  rw [Schema.atoms, hg.requires, hg.forbids, hg.adds, hg.deletes, hg.static] at hc
  simp only [List.mem_append] at hc
  simp only [Schema.atoms, List.mem_append]
  rcases hc with (((hc | hc) | hc) | hc) | hc <;> obtain ⟨b, hb, rfl⟩ := hlist _ hc <;>
    exact ⟨b, by simp [hb], rfl⟩

namespace Schema

variable {s : Schema}

theorem toAction?_eq_ok (h : s.distinct.fault? = none) : ∃ g, s.toAction? = .ok g := by
  unfold toAction?
  split
  · exact ⟨_, rfl⟩
  · rename_i hfault
    cases h.symm.trans hfault

theorem toAction?_eq_error {fault : SchemaFault} (h : s.distinct.fault? = some fault) :
    s.toAction? = .error fault.error := by
  unfold toAction?
  split
  · rename_i hnone
    cases h.symm.trans hnone
  · rename_i hfault
    rw [Option.some.inj (h.symm.trans hfault)]

end Schema

namespace Action

variable {a g : Action} {σ : Substitution} {h : Variable → Term} {ps : List SimpleTerm}

/-! ## Instances are checked again -/

theorem args_length_eq (a : Action) (ha : a.isProper) {b c : Atom} (hb : b ∈ a.atoms)
    (hc : c ∈ a.atoms) (heq : b.predicate = c.predicate) : b.args.length = c.args.length := by
  have htext : ∀ b ∈ a.atoms, b.predicate.isText := fun b hb =>
    (Atom.isProper_iff.mp ((Schema.isProper_iff.mp ha).2.2 b hb)).1
  have hsound := a.sound
  unfold Schema.fault? at hsound
  split_ifs at hsound
  exact ((Schema.atomFault?_eq_none_iff htext).mp hsound).2.same b hb c hc heq

theorem mem_vars_of_isInstance {s : Schema} (hs : a.IsInstance h s) {x y : Variable}
    (hx : x ∈ a.vars) (hy : y ∈ (h x).vars) : y ∈ s.vars := by
  obtain ⟨p, hp, hxp⟩ := List.mem_flatMap.mp hx
  have hmem : p.toTerm.bind h ∈ s.parameters.map SimpleTerm.toTerm := by
    rw [hs.parameters]
    exact List.mem_map_of_mem hp
  obtain ⟨q, hq, hqvalue⟩ := List.mem_map.mp hmem
  exact List.mem_flatMap.mpr ⟨q, hq, hqvalue ▸ Term.mem_vars_bind.mpr ⟨x, hxp, hy⟩⟩

/-- **Nothing is wrong with a proper instance of which the parameters are distinct.** -/
theorem fault?_eq_none_of_isInstance {s : Schema} (ha : a.isProper) (hs : a.IsInstance h s)
    (hnodup : s.vars.Nodup) : s.fault? = none := by
  have htext : ∀ c ∈ s.atoms, c.predicate.isText := by
    intro c hc
    obtain ⟨b, hb, rfl⟩ := hs.exists_of_mem_atoms hc
    exact (Atom.isProper_iff.mp ((Schema.isProper_iff.mp ha).2.2 b hb)).1
  rw [Schema.fault?, if_pos hnodup, Schema.atomFault?_eq_none_iff htext]
  refine ⟨?_, fun c _ n hn => (nomatch hn), ?_⟩
  · intro c hc y hy
    obtain ⟨b, hb, rfl⟩ := hs.exists_of_mem_atoms hc
    obtain ⟨x, hx, hxy⟩ := Atom.mem_vars_bind.mp hy
    exact mem_vars_of_isInstance hs (a.mem_vars hb hx) hxy
  · intro c hc d hd heq
    obtain ⟨b, hb, rfl⟩ := hs.exists_of_mem_atoms hc
    obtain ⟨e, he, rfl⟩ := hs.exists_of_mem_atoms hd
    simpa [Atom.bind] using a.args_length_eq ha hb he heq

/-- The schema of an action with its variables replaced, and what its parameters become. -/
def replaced (a : Action) (h : Variable → Term) (ps : List SimpleTerm) : Schema :=
  ⟨a.name, ps, a.requires.map (·.bind h), a.forbids.map (·.bind h), a.adds.map (·.bind h),
    a.deletes.map (·.bind h), a.static.map (·.bind h)⟩

section

variable (hps : (a.parameters.map fun p => p.toTerm.bind h) = ps.map SimpleTerm.toTerm)
  (hproper : ∀ q ∈ ps, q.toTerm.isProper)

include hps in
theorem isInstance_replaced : a.IsInstance h (a.replaced h ps).distinct :=
  ⟨rfl, hps.symm, rfl, rfl, rfl, rfl, rfl⟩

include hps hproper in
theorem instantiated?_eq : a.instantiated? h = (a.replaced h ps).toAction? := by
  rw [instantiated?, hps, parameters?_toTerm hproper]
  rfl

include hps hproper in
theorem exists_instantiated?_of_nodup (ha : a.isProper)
    (hnodup : (ps.flatMap fun q => q.toTerm.vars).Nodup) :
    ∃ g, a.instantiated? h = .ok g ∧ g.parameters = ps := by
  obtain ⟨g, hg⟩ := Schema.toAction?_eq_ok
    (fault?_eq_none_of_isInstance ha (isInstance_replaced hps) hnodup)
  refine ⟨g, (instantiated?_eq hps hproper).trans hg, ?_⟩
  rw [Schema.toSchema_of_toAction? hg]
  rfl

include hps hproper in
theorem instantiated?_of_not_nodup (hrepeated : ¬(ps.flatMap fun q => q.toTerm.vars).Nodup) :
    a.instantiated? h = .error (.schema (.repeatedParameter a.name
      ((ps.flatMap fun q => q.toTerm.vars).map (·.name)))) := by
  have hfault : (a.replaced h ps).distinct.fault? = some (.repeatedParameter a.name
      ((ps.flatMap fun q => q.toTerm.vars).map (·.name))) := if_neg hrepeated
  rw [instantiated?_eq hps hproper, Schema.toAction?_eq_error hfault]
  rfl

end

/-! ## Grounding -/

/-- The variables that a substitution leaves of the parameters, in order. -/
def leftOpen (a : Action) (σ : Substitution) : List Variable :=
  (a.parametersUnder σ).flatMap Term.vars

theorem exists_map_toTerm {ts : List Term} (h : ∀ t ∈ ts, (∃ x, t = .var x) ∨ ∃ c, t = .const c) :
    ∃ ps : List SimpleTerm, ts = ps.map SimpleTerm.toTerm ∧ ∀ q ∈ ps, q.toTerm.isProper := by
  induction ts with
  | nil => exact ⟨[], rfl, by simp⟩
  | cons t ts ih =>
      obtain ⟨ht, hrest⟩ := List.forall_mem_cons.mp h
      obtain ⟨ps, rfl, hps⟩ := ih hrest
      rcases ht with ⟨x, rfl⟩ | ⟨c, rfl⟩
      · exact ⟨.var x :: ps, rfl, List.forall_mem_cons.mpr ⟨rfl, hps⟩⟩
      · exact ⟨.const c :: ps, rfl, List.forall_mem_cons.mpr ⟨rfl, hps⟩⟩

theorem isGround_iff_vars {s : Schema} (hs : ∀ q ∈ s.parameters, q.toTerm.isProper) :
    s.isGround ↔ s.vars = [] := by
  rw [Schema.isGround, List.all_eq_true, Schema.vars, List.flatMap_eq_nil_iff]
  refine forall₂_congr fun q hq => ?_
  have hproper := hs q hq
  cases q with
  | var x => simp [SimpleTerm.isConstant, SimpleTerm.toTerm]
  | const c => simp [SimpleTerm.isConstant, SimpleTerm.toTerm]
  | listed => cases hproper

/-- A substitution with a loop is refused before anything is instantiated, and no other error is of
that kind. -/
theorem ground_eq_cyclicBinding_iff (ha : a.isProper) (hσ : σ.IsProper) :
    (∃ name t, a.ground σ = .error (.cyclicBinding name t)) ↔ ¬σ.Loopfree := by
  constructor
  · rintro ⟨name, t, hcyclic⟩ hloopfree
    cases refuses_of_ground hloopfree hσ ha hcyclic
  · intro hloop
    obtain ⟨-, name, t, -, -, -, -, hcheck⟩ := hσ.exists_cyclicBinding hloop
    exact ⟨name, t, by rw [ground, hcheck, error_bind]⟩

section

variable (hsimple : ∀ t ∈ a.parametersUnder σ, (∃ x, t = .var x) ∨ ∃ c, t = .const c)

include hsimple in
theorem exists_parameters : ∃ ps : List SimpleTerm,
    (a.parameters.map fun p => p.toTerm.bind fun x => σ.apply (.var x)) = ps.map SimpleTerm.toTerm ∧
      (∀ q ∈ ps, q.toTerm.isProper) ∧ (ps.flatMap fun q => q.toTerm.vars) = a.leftOpen σ := by
  obtain ⟨ps, hunder, hproper⟩ := exists_map_toTerm hsimple
  refine ⟨ps, ?_, hproper, ?_⟩
  · rw [← hunder, parametersUnder]
    exact List.map_congr_left fun p _ => (Substitution.apply_eq_bind σ p.toTerm).symm
  · rw [leftOpen, hunder, List.flatMap_map]

include hsimple in
/-- Where no variable is left of two parameters there is an instance, and the variables left are its
own. -/
theorem exists_instantiated?_of_leftOpen (ha : a.isProper) (hnodup : (a.leftOpen σ).Nodup) :
    ∃ g, a.instantiated? (fun x => σ.apply (.var x)) = .ok g ∧ g.vars = a.leftOpen σ ∧
      (g.isGround ↔ a.leftOpen σ = []) := by
  obtain ⟨ps, hps, hproper, hleft⟩ := exists_parameters hsimple
  rw [← hleft] at hnodup ⊢
  obtain ⟨g, hg, rfl⟩ := exists_instantiated?_of_nodup hps hproper ha hnodup
  exact ⟨g, hg, rfl, isGround_iff_vars hproper⟩

include hsimple in
theorem instantiated?_of_repeated (hrepeated : ¬(a.leftOpen σ).Nodup) :
    a.instantiated? (fun x => σ.apply (.var x)) = .error (.schema
      (.repeatedParameter a.name ((a.leftOpen σ).map (·.name)))) := by
  obtain ⟨ps, hps, hproper, hleft⟩ := exists_parameters hsimple
  rw [← hleft] at hrepeated ⊢
  exact instantiated?_of_not_nodup hps hproper hrepeated

end

theorem constants_of_isGround (hg : g.isProper) (hground : g.isGround) :
    (∀ q ∈ g.parameters, ∃ c, q = .const c) ∧ ∀ b ∈ g.atoms, b.vars = [] := by
  refine ⟨fun q hq => ?_, fun b hb => (closed_of_isGround hg hground hb).2⟩
  have hconstant := List.all_eq_true.mp hground q hq
  cases q with
  | var x => cases hconstant
  | const c => exact ⟨c, rfl⟩
  | listed => cases (Schema.isProper_iff.mp hg).2.1 _ hq

/-- **Grounding an action.**  It refuses a substitution that has a loop, and nothing else for that
reason.  Where there is no loop and every parameter becomes a variable or a constant, the variables
left of the parameters decide.  Without any, the instance is returned: each of its lists of atoms is
that of the schema with the variables replaced and repetitions merged, and no variable is in it.
Distinct ones are refused as parameters left open, and repeated ones as a repeated parameter. -/
theorem ground_exact (ha : a.isProper) (hσ : σ.IsProper) :
    ((∃ name t, a.ground σ = .error (.cyclicBinding name t)) ↔ ¬σ.Loopfree) ∧
    (σ.Loopfree → (∀ t ∈ a.parametersUnder σ, (∃ x, t = .var x) ∨ ∃ c, t = .const c) →
      (a.leftOpen σ = [] → ∃ g, a.ground σ = .ok g ∧
      a.IsInstance (fun x => σ.apply (.var x)) g.toSchema ∧
        (∀ q ∈ g.parameters, ∃ c, q = .const c) ∧ ∀ b ∈ g.atoms, b.vars = []) ∧
      (a.leftOpen σ ≠ [] → (a.leftOpen σ).Nodup → a.ground σ = .error (.openAction
        (.unboundParameters a.name (variableNames (a.leftOpen σ)) σ.text))) ∧
      (¬(a.leftOpen σ).Nodup → a.ground σ = .error (.schema
        (.repeatedParameter a.name ((a.leftOpen σ).map (·.name)))))) := by
  refine ⟨ground_eq_cyclicBinding_iff ha hσ, fun hloopfree hsimple => ?_⟩
  rw [ground_eq hloopfree.triangular hσ ha]
  -- no variable is left, or distinct ones are, or one is left of two parameters
  refine ⟨?_, ?_, ?_⟩
  · intro hnone
    obtain ⟨g, hg, -, hground⟩ :=
      exists_instantiated?_of_leftOpen hsimple ha (hnone ▸ List.nodup_nil)
    have hinstance := isInstance_of_instantiated? hg
    have hproper : g.isProper := hinstance.isProper ha fun x => Substitution.isProper_apply hσ rfl
    refine ⟨g, ?_, hinstance, constants_of_isGround hproper (hground.mpr hnone)⟩
    rw [hg, ok_bind, if_pos (hground.mpr hnone)]
  · intro hsome hnodup
    obtain ⟨g, hg, hvars, hground⟩ := exists_instantiated?_of_leftOpen hsimple ha hnodup
    rw [hg, ok_bind, if_neg (hground.not.mpr hsome), hvars, Error.printing, if_pos hσ.isPrintable]
  · intro hrepeated
    rw [instantiated?_of_repeated hsimple hrepeated, error_bind]

/-- Two who are at places of their own, or at one place, meet. -/
def meet : Except Error Action :=
  Worlds.action "Meet" ["here", "there"] [("At", ["here"]), ("At", ["there"])] []
    [("Met", ["here", "there"])] [] []

/-- The second place is the first, which is known. -/
def onePlace : Substitution :=
  ((∅ : Substitution).insert "there" (.var ⟨"here", by decide⟩)).insert "here"
    (.const ⟨"Bergen", by decide, by decide⟩)

/-- Those who are both at the one place that is known meet there. -/
theorem ground_exact_meet : ∃ a, meet = .ok a ∧ a.isProper ∧ onePlace.IsProper ∧ onePlace.Loopfree ∧
    (∀ t ∈ a.parametersUnder onePlace, (∃ x, t = .var x) ∨ ∃ c, t = .const c) ∧
    a.leftOpen onePlace = [] ∧
    ∃ g, a.ground onePlace = .ok g ∧ a.IsInstance (fun x => onePlace.apply (.var x)) g.toSchema ∧
      g.requires.length = 1 ∧ ∀ b ∈ g.atoms, b.vars = [] := by
  obtain ⟨a, hmeet, ha, hunder, hrequires⟩ : ∃ a, meet = .ok a ∧ a.isProper ∧
      (a.parametersUnder onePlace =
        [.const ⟨"Bergen", by decide, by decide⟩, .const ⟨"Bergen", by decide, by decide⟩]) ∧
      (a.requires.map (·.bind fun x => onePlace.apply (.var x))).eraseDups.length = 1 :=
    ⟨_, rfl, by decide, rfl, by decide⟩
  have hproper : onePlace.IsProper := by unfold Substitution.IsProper; decide
  have hloopfree : onePlace.Loopfree :=
    ((Substitution.triangular_empty.insert (x := ⟨"there", by decide⟩)
      (t := .var ⟨"here", by decide⟩) (by decide) (by decide) (by decide)).insert
      (x := ⟨"here", by decide⟩) (t := .const ⟨"Bergen", by decide, by decide⟩)
      (by decide) (by decide) (by decide)).loopfree
  have hsimple : ∀ t ∈ a.parametersUnder onePlace, (∃ x, t = .var x) ∨ ∃ c, t = .const c := by
    rw [hunder]
    simp
  have hnone : a.leftOpen onePlace = [] := by
    rw [leftOpen, hunder]
    rfl
  obtain ⟨g, hg, hinstance, -, hclosed⟩ := ((ground_exact ha hproper).2 hloopfree hsimple).1 hnone
  exact ⟨a, hmeet, ha, hproper, hloopfree, hsimple, hnone, g, hg, hinstance,
    hinstance.requires ▸ hrequires, hclosed⟩

theorem exists_drive : ∃ a, Worlds.drive = .ok a ∧ a.isProper ∧
    a.parameters = [.var ⟨"x", by decide⟩, .var ⟨"y", by decide⟩] :=
  ⟨_, rfl, by decide, rfl⟩

/-- Both places are the same unknown one. -/
def onePlaceUnknown : Substitution :=
  let anywhere : Term := .var ⟨"anywhere", by decide⟩
  ((∅ : Substitution).insert "x" anywhere).insert "y" anywhere

/-- Grounding is not always refused for a parameter left open where one is: driving from an unknown
place to the same place is refused as if it had been stated so. -/
theorem not_forall_leaves_open : ¬∀ (a : Action) (σ : Substitution), a.isProper → σ.IsProper →
    σ.Loopfree →
    (∀ t ∈ a.parametersUnder σ, (∃ x, t = .var x) ∨ ∃ c, t = .const c) →
      ((∃ fault, a.ground σ = .error (.openAction fault)) ↔ ∃ x, .var x ∈ a.parametersUnder σ) := by
  intro hall
  obtain ⟨a, -, ha, hparameters⟩ := exists_drive
  have hunder : a.parametersUnder onePlaceUnknown =
      [.var ⟨"anywhere", by decide⟩, .var ⟨"anywhere", by decide⟩] := by
    rw [parametersUnder, hparameters]
    rfl
  have hproper : onePlaceUnknown.IsProper := by unfold Substitution.IsProper; decide
  have hloopfree : onePlaceUnknown.Loopfree :=
    ((Substitution.triangular_empty.insert (x := ⟨"x", by decide⟩)
      (t := .var ⟨"anywhere", by decide⟩) (by decide) (by decide) (by decide)).insert
      (x := ⟨"y", by decide⟩) (t := .var ⟨"anywhere", by decide⟩)
      (by decide) (by decide) (by decide)).loopfree
  have hsimple : ∀ t ∈ a.parametersUnder onePlaceUnknown, (∃ x, t = .var x) ∨
      ∃ c, t = .const c := by
    rw [hunder]
    simp
  have hrepeated : ¬(a.leftOpen onePlaceUnknown).Nodup := by
    rw [leftOpen, hunder]
    decide
  obtain ⟨fault, hopen⟩ := (hall a onePlaceUnknown ha hproper hloopfree hsimple).mpr
    ⟨⟨"anywhere", by decide⟩, by rw [hunder]; exact List.mem_cons_self⟩
  -- the variable is left of both parameters, and the repetition is found first
  rw [ground_eq hloopfree.triangular hproper ha, instantiated?_of_repeated hsimple hrepeated]
    at hopen
  cases hopen

end Action

end HornPlan
