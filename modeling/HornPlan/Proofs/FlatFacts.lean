import HornPlan.Proofs.GroundInstances
import HornPlan.Proofs.Problems

/-!
# Where grounding fails

Nothing is wrong with an instance of an action in which no variable is left (`exists_ground`).  What
can go wrong is that a parameter stands for a compound term, which is no parameter of an action.
Such a term has been matched with a part of a fact (`exists_of_groundings_eq_error`).

A match against facts whose arguments are constants never does that.  So a state of such facts has
its applicable actions, provided that what the background knowledge entails is of the same kind
(`Problem.Proper.exists_applicableActions`).
-/

namespace HornPlan

namespace Action

variable {a : Action} {σ : Substitution} {cs : List Constant}

/-! ## Constants for parameters -/

theorem exists_map_const {ts : List Term} (h : ∀ t ∈ ts, ∃ c, t = .const c) :
    ∃ cs : List Constant, ts = cs.map .const := by
  have hrange : ts ∈ Set.range (List.map Term.const) := by
    rw [Set.range_list_map]
    intro t ht
    obtain ⟨c, rfl⟩ := h t ht
    exact ⟨c, rfl⟩
  obtain ⟨cs, rfl⟩ := hrange
  exact ⟨cs, rfl⟩

theorem exists_constants (hσ : σ.Closed) (ha : a.isProper)
    (hvalues : ∀ x ∈ a.vars, ∃ c, σ.value x = .const c) :
    ∃ cs : List Constant, a.parametersUnder σ = cs.map .const := by
  refine exists_map_const (List.forall_mem_map.mpr ?_)
  intro p hp
  rw [hσ.apply_eq]
  have hproper := (Schema.isProper_iff.mp ha).2.1 p hp
  cases p with
  | var x => exact hvalues x (List.mem_flatMap.mpr ⟨_, hp, List.mem_singleton_self x⟩)
  | const c => exact ⟨c, rfl⟩
  | listed => cases hproper

theorem exists_instantiated? (ha : a.isProper) {h : Variable → Term}
    (hparameters : (a.parameters.map fun p => p.toTerm.bind h) = cs.map .const) :
    ∃ g, a.instantiated? h = .ok g ∧ g.isGround := by
  have hps : (a.parameters.map fun p => p.toTerm.bind h) =
      (cs.map SimpleTerm.const).map SimpleTerm.toTerm := by
    rw [hparameters, List.map_map]
    rfl
  have hnone : ((cs.map SimpleTerm.const).flatMap fun q => q.toTerm.vars) = [] :=
    List.flatMap_eq_nil_iff.mpr (List.forall_mem_map.mpr fun c _ => rfl)
  obtain ⟨g, hg, hgps⟩ :=
    exists_instantiated?_of_nodup hps (List.forall_mem_map.mpr fun c _ => rfl) ha
    (hnone ▸ List.nodup_nil)
  refine ⟨g, hg, ?_⟩
  rw [Schema.isGround, hgps]
  exact List.all_eq_true.mpr (List.forall_mem_map.mpr fun c _ => rfl)

/-- **Grounding succeeds where every parameter becomes a constant.** -/
theorem exists_ground (hσ : σ.Closed) (ha : a.isProper)
    (hparameters : a.parametersUnder σ = cs.map .const) :
    ∃ g, a.ground σ = .ok g := by
  have hvalues : (a.parameters.map fun p => p.toTerm.bind σ.value) = cs.map .const := by
    simpa only [parametersUnder, hσ.apply_eq] using hparameters
  obtain ⟨g, hg, hground⟩ := exists_instantiated? ha hvalues
  exact ⟨g, (ground_eq_ok hσ ha).mpr ⟨hg, hground⟩⟩

end Action

/-! ## Flat facts -/

/-- All arguments are constants. -/
def Atom.isFlat (a : Atom) : Bool :=
  a.args.all fun t => match t with
    | .const _ => true
    | _ => false

theorem Atom.exists_const_of_isFlat {a : Atom} (ha : a.isFlat) {t : Term} (ht : t ∈ a.args) :
    ∃ c, t = .const c := by
  have hflat := List.all_eq_true.mp ha t ht
  cases t with
  | const c => exact ⟨c, rfl⟩
  | _ => cases hflat

namespace Action

variable {a : Action} {σ : Substitution} {facts entailed : List Atom} {e : Error}

theorem closed_value_of_isGround (ha : a.isProper) (hσ : σ.Closed)
    (hground : ∀ t ∈ a.parametersUnder σ, t.isGround) {x : Variable} (hx : x ∈ a.vars) :
    (σ.value x).Closed := by
  obtain ⟨p, hp, hxp⟩ := List.mem_flatMap.mp hx
  have hmem : σ.apply p.toTerm ∈ a.parametersUnder σ := List.mem_map_of_mem hp
  have hclosed :=
    (Term.isGround_iff_closed (isProper_of_mem_parametersUnder ha hσ _ hmem)).mp (hground _ hmem)
  rw [hσ.apply_eq] at hclosed
  exact (Term.closed_bind.mp hclosed).2 x hxp

/-- Grounding fails only where a variable among the parameters has become a compound term. -/
theorem exists_of_ground_eq_error (hσ : σ.Closed) (ha : a.isProper)
    (hground : ∀ t ∈ a.parametersUnder σ, t.isGround) (h : a.ground σ = .error e) :
    ∃ x ∈ a.vars, ∃ f args, σ.value x = .app f args ∧
    e = .schema (.badParameter a.name (.app f args)) := by
  have hbound : (a.parameters.map fun p => p.toTerm.bind σ.value) = a.parametersUnder σ := by
    simp only [parametersUnder, hσ.apply_eq]
  rcases hps : parameters? a.name (a.parametersUnder σ) with error | ps
  · have hfailed : a.ground σ = .error error := by
      rw [ground_eq hσ.triangular hσ.isProper ha, hσ.apply_var_eq, instantiated?, hbound, hps]
      rfl
    obtain rfl := Except.error.inj (h.symm.trans hfailed)
    obtain ⟨f, args, hmem, rfl⟩ :=
      exists_of_parameters?_eq_error (isProper_of_mem_parametersUnder ha hσ) hps
    obtain ⟨p, hp, hvalue⟩ := List.mem_map.mp hmem
    rw [hσ.apply_eq] at hvalue
    cases p with
    | var x =>
        exact ⟨x, List.mem_flatMap.mpr ⟨_, hp, List.mem_singleton_self x⟩, f, args, hvalue, rfl⟩
    | const => cases hvalue
    | listed => cases hvalue
  · -- the parameters are simple terms without variables, hence constants, and these ground
    -- the action
    have hconstants : ∀ x ∈ a.vars, ∃ c, σ.value x = .const c := by
      intro x hx
      obtain ⟨p, hp, hxp⟩ := List.mem_flatMap.mp hx
      have hclosed := closed_value_of_isGround ha hσ hground hx
      cases p with
      | const => exact absurd hxp List.not_mem_nil
      | listed => exact absurd hxp List.not_mem_nil
      | var y =>
          obtain rfl := List.mem_singleton.mp hxp
          have hmem : σ.value x ∈ ps.map SimpleTerm.toTerm := by
            rw [Schema.toTerm_of_parameters? hps, ← hbound]
            exact List.mem_map_of_mem hp
          obtain ⟨q, -, hq⟩ := List.mem_map.mp hmem
          rw [← hq] at hclosed ⊢
          cases q with
          | const c => exact ⟨c, rfl⟩
          | var => cases hclosed.2
          | listed => cases hclosed.1
    obtain ⟨cs, hcs⟩ := exists_constants hσ ha hconstants
    obtain ⟨g, hg⟩ := exists_ground hσ ha hcs
    cases h.symm.trans hg

/-- Instantiation fails only where a grounding does. -/
theorem exists_of_instantiate_eq_error (ha : a.isProper)
    {pairs : List (Substitution × Substitution)}
    (hclosed : ∀ pair ∈ pairs, pair.1.Closed ∧ pair.2.Closed) {met : List (List Term)}
    (h : a.instantiate met pairs = .error e) : ∃ pair ∈ pairs, ∃ σ, pair.1.compose pair.2 = .ok σ ∧
      (∀ t ∈ a.parametersUnder σ, t.isGround) ∧ a.ground σ = .error e := by
  induction pairs generalizing met with
  | nil => cases h
  | cons pair rest ih =>
      obtain ⟨⟨houter, hinner⟩, hrest⟩ := List.forall_mem_cons.mp hclosed
      obtain ⟨σ, hcompose, hσ, -⟩ := houter.compose_spec hinner
      -- a failure under one of the later pairs is a failure under one of all
      have hlater : ∀ {met}, a.instantiate met rest = .error e → ∃ pair' ∈ pair :: rest, ∃ σ,
          pair'.1.compose pair'.2 = .ok σ ∧ (∀ t ∈ a.parametersUnder σ, t.isGround) ∧
            a.ground σ = .error e := fun h => by
        obtain ⟨other, hother, hfailed⟩ := ih hrest h
        exact ⟨other, List.mem_cons_of_mem _ hother, hfailed⟩
      rw [instantiate_cons hcompose] at h
      split at h
      · exact hlater h
      · rename_i hopen
        have hground := List.all_eq_true.mp (by simpa using hopen :
          (a.parametersUnder σ).all Term.isGround = true)
        have hindexable : (a.parametersUnder σ).all Term.isIndexable = true :=
          List.all_eq_true.mpr fun t ht =>
            Term.isIndexable_of_isProper (isProper_of_mem_parametersUnder ha hσ t ht)
        rw [hindexable, if_neg (by decide)] at h
        split at h
        · exact hlater h
        · rcases bind_eq_error.mp h with hfailed | ⟨_, -, h⟩
          · exact ⟨pair, List.mem_cons_self, σ, hcompose, hground, hfailed⟩
          · rcases bind_eq_error.mp h with hfailed | ⟨_, -, h⟩
            · exact hlater hfailed
            · cases h

/-- **Groundings fail only at a compound term that is part of a fact**, and the error shows it. -/
theorem exists_of_groundings_eq_error (ha : a.isProper) (hfacts : ∀ f ∈ facts, f.Closed)
    {kb : KnowledgeBase} (hkb : kb.Proper) (hentailed : kb.closure = .ok entailed)
    (h : a.groundings facts (some kb) = .error e) :
    ∃ f args, e = .schema (.badParameter a.name (.app f args)) ∧
      ∃ c ∈ facts ++ entailed, ∃ t ∈ c.args, .app f args ∈ t.subterms := by
  obtain ⟨pairs, hpairs, hallows, -⟩ := bindings_spec ha hfacts hkb hentailed
  rw [groundings_eq_ok hpairs] at h
  obtain ⟨pair, hpair, σ, hcompose, hground, hfailed⟩ :=
    exists_of_instantiate_eq_error ha (fun pair hpair =>
    ⟨(hallows pair hpair).answered.closed, (hallows pair hpair).matched.closed⟩) h
  have hallow := hallows pair hpair
  obtain ⟨τ, hτ, hσ, hlookup⟩ := hallow.answered.closed.compose_spec hallow.matched.closed
  obtain rfl : σ = τ := Except.ok.inj (hcompose.symm.trans hτ)
  obtain ⟨x, hx, f, args, hvalue, rfl⟩ := exists_of_ground_eq_error hσ ha hground hfailed
  have hclosed := closed_value_of_isGround ha hσ hground hx
  -- the variable was bound by a match of an atom with a fact
  obtain ⟨b, hb, hxb⟩ := hallow.determined hlookup hclosed.2
  obtain ⟨t, ht, hxt⟩ := Atom.mem_vars.mp hxb
  refine ⟨f, args, rfl, b.bind σ.value, ?_, t.bind σ.value, List.mem_map_of_mem ht, ?_⟩
  · rcases List.mem_append.mp hb with hb | hb
    · exact List.mem_append_left _ (hallow.requires_mem hfacts hlookup hb)
    · exact List.mem_append_right _ (hallow.static_mem hlookup hb)
  · rw [← hvalue]
    exact Term.mem_subterms_bind hxt

/-- **Flat facts have groundings.** -/
theorem exists_groundings (ha : a.isProper) (hfacts : ∀ f ∈ facts, f.Closed) {kb : KnowledgeBase}
    (hkb : kb.Proper) (hentailed : kb.closure = .ok entailed)
    (hflat : ∀ f ∈ facts ++ entailed, f.isFlat) :
    ∃ grounded, a.groundings facts (some kb) = .ok grounded := by
  rcases h : a.groundings facts (some kb) with e | grounded
  · obtain ⟨f, args, -, c, hc, t, ht, hmem⟩ :=
      exists_of_groundings_eq_error ha hfacts hkb hentailed h
    obtain ⟨k, rfl⟩ := Atom.exists_const_of_isFlat (hflat c hc) ht
    cases List.mem_singleton.mp hmem
  · exact ⟨grounded, rfl⟩

end Action

/-- **A state of flat facts has its applicable actions.** -/
theorem Problem.Proper.exists_applicableActions {p : Problem} (hp : p.Proper) {s : State}
    (hs : s.Proper) {entailed : List Atom} (hentailed : p.kb.closure = .ok entailed)
    (hflat : ∀ f ∈ s.facts ++ entailed, f.isFlat) :
    ∃ listed, p.applicableActions s = .ok listed := by
  obtain ⟨facts, hfacts, hknowledge, hclosure⟩ := hp.exists_knowledge
  obtain rfl := Except.ok.inj (hentailed.symm.trans hfacts)
  have hlisting : ∀ f ∈ p.order.listing s ++ entailed, f.isFlat := by
    intro f hf
    rw [List.mem_append, Enumeration.mem_listing, ← List.mem_append] at hf
    exact hflat f hf
  obtain ⟨parts, hparts, -⟩ : ∃ parts, (p.actions.mapM fun a => do
      return (← a.groundings (p.order.listing s) p.knowledge).filter (·.enabled s)) =
        Except.ok parts ∧
      List.Forall₂ (fun _ _ => True) p.actions parts := by
    refine exists_mapM_eq_ok ?_
    intro a ha
    obtain ⟨grounded, hgrounded⟩ := Action.exists_groundings (hp.actions a ha)
      (fun f hf => hs.closed f (Enumeration.mem_listing.mp hf)) hknowledge hclosure hlisting
    exact ⟨grounded.filter (·.enabled s), by rw [hgrounded]; rfl, trivial⟩
  exact ⟨parts.flatten, by rw [applicableActions, hs.factsByPredicate_eq, ok_bind, hparts]; rfl⟩

end HornPlan
