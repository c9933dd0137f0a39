import HornPlan.Proofs.Entailment

/-!
# What holds is what follows

A conjunction holds in a state when some ground substitution of its variables makes consequences of
its goals (`Follows`).  A knowledge base of the state decides that (`State.Proper.asks_spec`), but
it may have to chain.

So the knowledge base is passed over where all goals are ground and no rule concludes their
predicates: such a goal is a consequence only when it is a fact of the state
(`mem_consequences_iff`), and it is looked up there.  Whichever way is taken, the answer is the same
(`State.Proper.holds_spec`).
-/

namespace HornPlan

/-! ## Every state has a knowledge base -/

theorem Clause.safe_ofAtom {f : Atom} (hf : f.Closed) : (ofAtom f).Safe := by
  have hvars : (ofAtom f).consequent.vars = [] := hf.2
  have hbound : (ofAtom f).unbound = [] := by
    rw [unbound, hvars, List.filter_nil]
  have hargs : (ofAtom f).consequent.args.find? buildsTerm = none := by
    refine List.find?_eq_none.mpr ?_
    intro t ht
    have hclosed : t.Closed := Term.Closed.of_mem_subterms hf
      (Term.mem_subterms_app.mpr (Or.inr ⟨t, ht, Term.mem_subterms_self t⟩))
    have hground := (Term.isGround_iff_closed hclosed.1).mpr hclosed
    cases t with
    | app f args => simp [buildsTerm, hground]
    | _ => exact Bool.false_ne_true
  rw [Safe, hazard?, hbound, hargs]
  rfl

theorem Clause.refusal?_eq_none {c : Clause} (hc : c.isProper) (hsafe : c.Safe) :
    c.refusal? = none := by
  obtain ⟨hantecedents, hconsequent⟩ := Clause.isProper_iff.mp hc
  have hlisted : c.hasListedVariable = false := by
    rw [hasListedVariable, Bool.or_eq_false_iff, List.any_eq_false]
    refine ⟨fun a ha => ?_, Term.hasListedVariable_eq_false hconsequent⟩
    rw [Bool.not_eq_true]
    exact Term.hasListedVariable_eq_false (hantecedents a ha)
  rw [refusal?, hlisted, hsafe]
  rfl

theorem KnowledgeBase.exists_tell (kb : KnowledgeBase) {c : Clause} (hc : c.isProper)
    (hsafe : c.Safe) :
    ∃ next, kb.tell c = .ok next := by
  unfold tell
  split
  · exact ⟨_, rfl⟩
  · rename_i hrefusal
    cases (Clause.refusal?_eq_none hc hsafe).symm.trans hrefusal

theorem KnowledgeBase.exists_foldlM_tell {statements : List Statement} (kb : KnowledgeBase)
    (h : ∀ statement ∈ statements, ∃ c, statement.clause? = .ok c ∧ c.isProper ∧ c.Safe) :
    ∃ next, statements.foldlM (fun kb c => do kb.tell (← c.clause?)) kb = .ok next := by
  induction statements generalizing kb with
  | nil => exact ⟨kb, rfl⟩
  | cons statement statements ih =>
      obtain ⟨⟨c, hc, hproper, hsafe⟩, hrest⟩ := List.forall_mem_cons.mp h
      obtain ⟨told, htold⟩ := kb.exists_tell hproper hsafe
      obtain ⟨next, hnext⟩ := ih told hrest
      refine ⟨next, ?_⟩
      rw [List.foldlM_cons, hc, ok_bind, htold, ok_bind]
      exact hnext

variable {s : State} {rules : List Clause} {goals : List Atom}

theorem exists_knowledgeBase (hs : s.Proper) (hrules : ∀ r ∈ rules, r.isProper ∧ r.Safe)
    (e : Enumeration) : ∃ kb, e.knowledgeBase s rules = .ok kb := by
  rw [Enumeration.knowledgeBase, hs.entries?_eq, ok_bind]
  refine KnowledgeBase.exists_foldlM_tell _ ?_
  intro statement hstatement
  rcases List.mem_append.mp hstatement with hmem | hmem
  · obtain ⟨r, hr, rfl⟩ := List.mem_map.mp hmem
    exact ⟨r, rfl, hrules r hr⟩
  · obtain ⟨t, ht, rfl⟩ := List.mem_map.mp hmem
    obtain ⟨f, hf, rfl⟩ := hs.mem_entries.mp ht
    have hclosed := hs.closed f hf
    exact ⟨.ofAtom f, rfl,
      Clause.isProper_iff.mpr ⟨fun a ha => absurd ha List.not_mem_nil, hclosed.1⟩,
      Clause.safe_ofAtom hclosed⟩

/-! ## Goals that follow -/

theorem closed_of_mem_consequences {facts : List Atom} (hrules : ProperRules rules)
    (hfacts : ∀ g ∈ facts, g.Closed) {f : Atom} (hf : f ∈ Consequences rules facts) : f.Closed := by
  have hclosed : ClosedUnder rules {g | g.Closed} := fun r hr _ _ hbody =>
    (hrules r hr).2.closed_consequent (hrules r hr).1 hbody
  exact hf {g | g.Closed} hfacts hclosed

/-- Some ground substitution of the variables of the goals makes consequences of them all. -/
def Follows (rules : List Clause) (facts goals : List Atom) : Prop :=
  ∃ h : Variable → Term, (∀ g ∈ goals, ∀ x ∈ g.vars, (h x).isGround) ∧
    ∀ g ∈ goals, g.bind h ∈ Consequences rules facts

/-- Since consequences are closed, only a ground substitution makes consequences of goals. -/
theorem follows_iff {facts : List Atom} (hrules : ProperRules rules)
    (hfacts : ∀ g ∈ facts, g.Closed) :
    Follows rules facts goals ↔
    ∃ h : Variable → Term, ∀ g ∈ goals, g.bind h ∈ Consequences rules facts := by
  refine exists_congr fun h => and_iff_right_of_imp fun hmem g hg x hx => ?_
  have hclosed : (g.bind h).Closed := closed_of_mem_consequences hrules hfacts (hmem g hg)
  have hvalue : (h x).Closed := (Atom.closed_bind.mp hclosed).2 x hx
  exact (Term.isGround_iff_closed hvalue.1).mpr hvalue

/-! ## Goals put to the knowledge base -/

/-- Puts a conjunction to the knowledge base of a state and rules, whatever its goals are. -/
def Enumeration.asks (e : Enumeration) (s : State) (goals : List Atom) (rules : List Clause) :
    Except Error Bool := do
  let kb ← e.knowledgeBase s rules
  return (← kb.ask goals).1.isSome

/-- **The knowledge base of a state decides what follows from it.** -/
theorem State.Proper.asks_spec (hs : s.Proper) (hrules : ProperRules rules)
    (hgoals : ∀ g ∈ goals, g.isProper) (e : Enumeration) :
    ∃ b, e.asks s goals rules = .ok b ∧ (b ↔ Follows rules s.facts goals) := by
  have hproper : ∀ r ∈ rules, r.isProper := fun r hr => (hrules r hr).1
  obtain ⟨kb, hkb⟩ := exists_knowledgeBase hs hrules e
  have hkbproper := (knowledgeBase_spec hs hproper hkb).1
  obtain ⟨facts, hfacts, -⟩ := hkbproper.exists_closure
  obtain ⟨answer, next, hask, hiff⟩ := hkbproper.ask_spec hfacts hgoals
  refine ⟨answer.isSome, by rw [Enumeration.asks, hkb, ok_bind, hask]; rfl, ?_⟩
  rw [hiff, follows_iff hrules hs.closed]
  exact exists_congr fun h => forall₂_congr fun g _ => mem_closure_iff hs hproper hkb hfacts

/-! ## Goals looked up -/

theorem Atom.isLookup_eq {g : Atom} (hg : g.isProper) (rules : List Clause) :
    g.isLookup rules = .ok (g.isGround && !rules.any fun r => r.consequent.key == g.key) := by
  rw [Atom.isLookup, KnowledgeBase.requireKey_eq_ok hg]
  cases g.isGround <;> rfl

/-- Goals that may all be looked up are closed, and no rule concludes them. -/
theorem of_areLookups (hgoals : ∀ g ∈ goals, g.isProper)
    (h : goals.allM (·.isLookup rules) = .ok true) :
    ∀ g ∈ goals, g.Closed ∧ ∀ r ∈ rules, r.consequent.key ≠ g.key := by
  rw [allM_eq_ok fun g hg => Atom.isLookup_eq (hgoals g hg) rules] at h
  intro g hg
  have hlookup := List.all_eq_true.mp (Except.ok.inj h) g hg
  rw [Bool.and_eq_true, Bool.not_eq_true', List.any_eq_false] at hlookup
  refine ⟨(Atom.isGround_iff_closed (hgoals g hg)).mp hlookup.1, fun r hr hkey => ?_⟩
  exact hlookup.2 r hr ((Atom.key_beq_iff (Or.inr (hgoals g hg))).mpr hkey)

theorem mem_consequences_iff {facts : List Atom} {f : Atom}
    (hkey : ∀ r ∈ rules, r.consequent.key ≠ f.key) : f ∈ Consequences rules facts ↔ f ∈ facts := by
  constructor
  · intro hf
    refine (mem_or_concluded_of_mem_consequences hf).resolve_right ?_
    rintro ⟨r, hr, hconcluded⟩
    exact hkey r hr hconcluded
  · exact fun hf => (isLeast_consequences rules facts).1.1 f hf

/-- **Looking goals up decides what follows**, where the goals may be looked up. -/
theorem State.Proper.lookUp_spec (hs : s.Proper) (hrules : ProperRules rules)
    (hgoals : ∀ g ∈ goals, g.isProper) (h : goals.allM (·.isLookup rules) = .ok true) :
    ∃ b, goals.allM (fun g => s.lookUp g.toTerm) = .ok b ∧ (b ↔ Follows rules s.facts goals) := by
  have hlookups := of_areLookups hgoals h
  refine ⟨goals.all s.holdsFact, allM_eq_ok fun g hg => State.lookUp_eq (hgoals g hg) s, ?_⟩
  -- a closed goal is its own instance, whatever is put for its variables
  have hinstance : ∀ (k : Variable → Term) (g : Atom), g ∈ goals →
      (g.bind k ∈ Consequences rules s.facts ↔ s.holdsFact g) := by
    intro k g hg
    obtain ⟨hclosed, hkey⟩ := hlookups g hg
    rw [hclosed.bind_eq, mem_consequences_iff hkey, hs.holdsFact_iff]
  rw [List.all_eq_true, follows_iff hrules hs.closed]
  constructor
  · exact fun hall => ⟨.var, fun g hg => (hinstance .var g hg).mpr (hall g hg)⟩
  · rintro ⟨k, hmem⟩ g hg
    exact (hinstance k g hg).mp (hmem g hg)

/-! ## Conjunctions are decided -/

/-- **A conjunction holds exactly when it follows**, whether its goals are looked up or put to the
knowledge base. -/
theorem State.Proper.holds_spec (hs : s.Proper) (hrules : ProperRules rules)
    (hgoals : ∀ g ∈ goals, g.isProper) (e : Enumeration) :
    ∃ b, e.holds s goals rules = .ok b ∧ (b ↔ Follows rules s.facts goals) := by
  have hkeys : rules.forM (fun r => r.consequent.requireKey) = .ok () := forM_eq_ok fun r hr =>
    KnowledgeBase.requireKey_eq_ok (Clause.isProper_iff.mp (hrules r hr).1).2
  obtain ⟨lookup, hlookup⟩ : ∃ b, goals.allM (·.isLookup rules) = .ok b :=
    ⟨_, allM_eq_ok fun g hg => Atom.isLookup_eq (hgoals g hg) rules⟩
  unfold Enumeration.holds
  split
  · rename_i hempty
    have hnone : goals = [] := List.isEmpty_iff.mp hempty
    exact ⟨true, rfl, iff_of_true rfl ⟨.var, by simp [hnone], by simp [hnone]⟩⟩
  · rw [hkeys, ok_bind, hlookup, ok_bind]
    cases lookup with
    | true => exact hs.lookUp_spec hrules hgoals hlookup
    | false => exact hs.asks_spec hrules hgoals e

theorem State.Proper.exists_holds (hs : s.Proper) (hrules : ProperRules rules)
    (hgoals : ∀ g ∈ goals, g.isProper) (e : Enumeration) : ∃ b, e.holds s goals rules = .ok b := by
  obtain ⟨b, hb, -⟩ := hs.holds_spec hrules hgoals e
  exact ⟨b, hb⟩

/-- A query of atoms over clauses is a conjunction. -/
theorem Enumeration.holdsQuery_eq (e : Enumeration) (s : State) (hrules : ∀ r ∈ rules, r.isProper)
    (goals : List Atom) :
    e.holdsQuery s (.all (goals.map Atom.toTerm)) (rules.map .inl) = e.holds s goals rules := by
  have hgoals : (Query.all (goals.map Atom.toTerm)).goals? = .ok goals := by
    rw [Query.goals?, mapM_eq_ok, List.forall₂_map_left_iff, List.forall₂_same]
    exact fun g _ => rfl
  unfold Enumeration.holdsQuery
  rw [hgoals]
  cases goals with
  | nil => rfl
  | cons g goals =>
      -- every rule is handed over as the clause that it is
      refine (congrArg (· >>= _) (?_ : _ = Except.ok rules)).trans (ok_bind rules _)
      rw [mapM_eq_ok, List.forall₂_map_left_iff, List.forall₂_same]
      intro r hr
      have hkey : r.consequent.requireKey = .ok () :=
        KnowledgeBase.requireKey_eq_ok (Clause.isProper_iff.mp (hrules r hr)).2
      simp only [hkey]
      rfl

/-- **A conjunction holds exactly when some ground substitution turns its goals into members of the
least set of facts that holds those of the state and is closed under the rules.**  So it is for any
goals, none at all included, and in whatever order the facts are met; and where the goals are looked
up in the state the knowledge base would have given the same answer. -/
theorem State.Proper.holds_iff_consequences (hs : s.Proper) (hrules : ProperRules rules)
    (hgoals : ∀ g ∈ goals, g.isProper) : ∃ b,
      s.holdsQuery (.all (goals.map Atom.toTerm)) (rules.map .inl) = .ok b ∧
      (∀ e : Enumeration,
        e.holdsQuery s (.all (goals.map Atom.toTerm)) (rules.map .inl) = .ok b ∧
        e.holds s goals rules = .ok b ∧ e.asks s goals rules = .ok b) ∧
      (goals.allM (·.isLookup rules) = .ok true → goals.allM (fun g => s.lookUp g.toTerm) = .ok b) ∧
      (b = true ↔ ∃ h : Variable → Term, (∀ g ∈ goals, ∀ x ∈ g.vars, (h x).isGround) ∧
        ∀ g ∈ goals, g.bind h ∈ Consequences rules s.facts) := by
  obtain ⟨b, -, hiff⟩ := hs.holds_spec hrules hgoals .byCode
  -- what follows does not depend on how the state is gone through, and neither does the answer
  have hsame : ∀ e : Enumeration,
      e.holdsQuery s (.all (goals.map Atom.toTerm)) (rules.map .inl) = .ok b ∧
      e.holds s goals rules = .ok b ∧ e.asks s goals rules = .ok b := by
    intro e
    obtain ⟨held, hheld, hiffHeld⟩ := hs.holds_spec hrules hgoals e
    obtain rfl : b = held := Bool.eq_iff_iff.mpr (hiff.trans hiffHeld.symm)
    obtain ⟨asked, hasked, hiffAsked⟩ := hs.asks_spec hrules hgoals e
    obtain rfl : b = asked := Bool.eq_iff_iff.mpr (hiff.trans hiffAsked.symm)
    exact ⟨(e.holdsQuery_eq s (fun r hr => (hrules r hr).1) goals).trans hheld, hheld, hasked⟩
  refine ⟨b, (hsame .byCode).1, hsame, ?_, hiff⟩
  intro hlookups
  obtain ⟨looked, hlooked, hiffLooked⟩ := hs.lookUp_spec hrules hgoals hlookups
  obtain rfl : b = looked := Bool.eq_iff_iff.mpr (hiff.trans hiffLooked.symm)
  exact hlooked

/-- The state that holds the roads of `KnowledgeBase.roads`, without the rule that they lead in both
directions. -/
def State.ofRoads : State :=
  .ofList (Clause.factsOf KnowledgeBase.roads)

theorem holds_iff_consequences_of_roads : State.ofRoads.Proper ∧ ProperRules KnowledgeBase.roads ∧
    (∀ g ∈ KnowledgeBase.detour, g.isProper) ∧ ∃ b,
      State.ofRoads.holdsQuery (.all (KnowledgeBase.detour.map Atom.toTerm))
        (KnowledgeBase.roads.map .inl) = .ok b ∧
      (∀ e : Enumeration,
        e.holdsQuery State.ofRoads (.all (KnowledgeBase.detour.map Atom.toTerm))
          (KnowledgeBase.roads.map .inl) = .ok b ∧
        e.holds State.ofRoads KnowledgeBase.detour KnowledgeBase.roads = .ok b ∧
        e.asks State.ofRoads KnowledgeBase.detour KnowledgeBase.roads = .ok b) ∧
      (KnowledgeBase.detour.allM (·.isLookup KnowledgeBase.roads) = .ok true →
        KnowledgeBase.detour.allM (fun g => State.ofRoads.lookUp g.toTerm) = .ok b) ∧
      (b = true ↔ ∃ h : Variable → Term,
        (∀ g ∈ KnowledgeBase.detour, ∀ x ∈ g.vars, (h x).isGround) ∧
        ∀ g ∈ KnowledgeBase.detour,
          g.bind h ∈ Consequences KnowledgeBase.roads State.ofRoads.facts) := by
  have hclosed : ∀ f ∈ Clause.factsOf KnowledgeBase.roads, f.toTerm.isProper ∧
      f.toTerm.vars = [] := by
    decide
  have hs : State.ofRoads.Proper := State.proper_ofList hclosed
  have hrules : ProperRules KnowledgeBase.roads := by
    unfold ProperRules
    decide
  have hgoals : ∀ g ∈ KnowledgeBase.detour, g.isProper := by decide
  exact ⟨hs, hrules, hgoals, hs.holds_iff_consequences hrules hgoals⟩

end HornPlan
