import HornPlan.Proofs.Instances
import HornPlan.Proofs.KnowledgeBases

/-!
# Groundings

The groundings of an action are found from pairs of bindings: a match of the required facts, and an
answer to the static conditions under it.  A pair composes to a substitution that turns the required
facts into facts of the state and the static conditions into entailed facts, and which binds exactly
the variables that these mention.

So a grounding is an instance under an assignment that does both (`exists_of_mem_groundings`), and
for every such assignment to variables that are all mentioned its instance is among the groundings
(`exists_mem_groundings`).  With more facts to match there are at least as many groundings
(`groundings_mono`), which is why a relaxed graph loses none.
-/

namespace HornPlan.Action

variable {a g : Action} {σ : Substitution}

/-! ## Pairs of bindings -/

/-- A pair of bindings that the required facts and the static conditions of an action allow. -/
structure Allows (facts entailed : List Atom) (a : Action) (pair : Substitution × Substitution) :
    Prop where
  matched : Satisfies facts a.requires ∅ pair.2
  answered : IsAnswer entailed (a.static.map pair.2.applyAtom) pair.1

variable {facts entailed : List Atom} {pair : Substitution × Substitution}

/-- The values of a composition: those of the inner substitution, and then those of the outer
one. -/
theorem value_eq_bind_value {inner outer : Substitution} (hinner : inner.Closed)
    (hlookup : ∀ name, σ.lookup name = (inner.lookup name).or (outer.lookup name)) (x : Variable) :
    σ.value x = (inner.value x).bind outer.value := by
  unfold Substitution.value
  rw [hlookup]
  cases hx : inner.lookup x.name with
  | none => rfl
  | some t =>
      have hclosed := hinner.of_lookup hx
      rw [Option.some_or, Option.getD_some, Term.Closed.bind_eq hclosed]

theorem bind_value_eq {inner outer : Substitution} (hinner : inner.Closed)
    (hlookup : ∀ name, σ.lookup name = (inner.lookup name).or (outer.lookup name)) (b : Atom) :
    b.bind σ.value = (inner.applyAtom b).bind outer.value := by
  calc b.bind σ.value = b.bind fun x => (inner.value x).bind outer.value :=
        Atom.bind_congr fun x _ => value_eq_bind_value hinner hlookup x
    _ = (b.bind inner.value).bind outer.value := (Atom.bind_bind _ _ b).symm
    _ = (inner.applyAtom b).bind outer.value := by rw [hinner.applyAtom_eq]

theorem Allows.requires_mem (hpair : a.Allows facts entailed pair) (hfacts : ∀ f ∈ facts, f.Closed)
    (hlookup : ∀ name, σ.lookup name = (pair.2.lookup name).or (pair.1.lookup name)) {b : Atom}
    (hb : b ∈ a.requires) : b.bind σ.value ∈ facts := by
  have hclosed := hpair.matched.closed
  have hmem := (hpair.matched.solvedBy _ hclosed.solvedBy_value).2 b hb
  rw [bind_value_eq hclosed hlookup, hclosed.applyAtom_eq, (hfacts _ hmem).bind_eq]
  exact hmem

theorem Allows.static_mem (hpair : a.Allows facts entailed pair)
    (hlookup : ∀ name, σ.lookup name = (pair.2.lookup name).or (pair.1.lookup name)) {b : Atom}
    (hb : b ∈ a.static) : b.bind σ.value ∈ entailed := by
  rw [bind_value_eq hpair.matched.closed hlookup]
  exact hpair.answered.mem_facts _ (List.mem_map_of_mem hb)

/-- A variable occurs in a required fact or a static condition, so that a grounding binds it. -/
def Determined (a : Action) (x : Variable) : Prop :=
  ∃ b ∈ a.requires ++ a.static, x ∈ b.vars

/-- Only determined variables have ground values. -/
theorem Allows.determined (hpair : a.Allows facts entailed pair)
    (hlookup : ∀ name, σ.lookup name = (pair.2.lookup name).or (pair.1.lookup name)) {x : Variable}
    (hx : (σ.value x).vars = []) : a.Determined x := by
  have hclosed := hpair.matched.closed
  by_cases hinner : x.name ∈ pair.2.names
  · rcases hpair.matched.names _ hinner with hno | ⟨b, hb, y, hy, hname⟩
    · exact absurd hno List.not_mem_nil
    · exact ⟨b, List.mem_append_left _ hb, Variable.eq_of_name_eq hname ▸ hy⟩
  · -- the variable is bound by the answer, so it occurs in a static condition
    have hvalue : pair.2.value x = .var x := by
      rw [Substitution.value, Substitution.lookup_eq_none_iff.mpr hinner]
      rfl
    rw [value_eq_bind_value hclosed hlookup, hvalue, Term.bind_var] at hx
    have houter : x.name ∈ pair.1.names := by
      by_contra hno
      rw [Substitution.value, Substitution.lookup_eq_none_iff.mpr hno] at hx
      cases hx
    obtain ⟨c, hc, hxc⟩ := hpair.answered.mem_names.mp houter
    obtain ⟨b, hb, rfl⟩ := List.mem_map.mp hc
    rw [hclosed.applyAtom_eq] at hxc
    obtain ⟨y, hy, hxy⟩ := Atom.mem_vars_bind.mp hxc
    refine ⟨b, List.mem_append_right _ hb, ?_⟩
    by_cases hbound : y.name ∈ pair.2.names
    · rw [(Substitution.value_of_mem_names hclosed hbound).2] at hxy
      exact absurd hxy List.not_mem_nil
    · rw [Substitution.value, Substitution.lookup_eq_none_iff.mpr hbound] at hxy
      exact List.mem_singleton.mp hxy ▸ hy

/-! ## All pairs -/

theorem isAnswer_nil (entailed : List Atom) : IsAnswer entailed [] ∅ :=
  ⟨Substitution.closed_empty, rfl, fun _ h => absurd h List.not_mem_nil⟩

/-- The extensions of one match by answers to the static conditions under it. -/
theorem exists_extensions (hstatic : ∀ b ∈ a.static, b.isProper) {kb : KnowledgeBase}
    (hkb : kb.Proper) (hentailed : kb.closure = .ok entailed) {θ : Substitution} (hθ : θ.Closed) :
    ∃ extensions, (if a.static.isEmpty then .ok [(∅, θ)]
        else do
          let (extensions, _) ← kb.askAll (a.static.map θ.applyAtom)
          return extensions.map fun extension => (extension, θ)) =
          (Except.ok extensions : Except Error _) ∧
      (∀ pair ∈ extensions, pair.2 = θ ∧ IsAnswer entailed (a.static.map θ.applyAtom) pair.1) ∧
      ∀ h : Variable → Term, (∀ c ∈ a.static.map θ.applyAtom, c.bind h ∈ entailed) →
        ∃ pair ∈ extensions, ∀ c ∈ a.static.map θ.applyAtom, ∀ x ∈ c.vars,
        pair.1.value x = h x := by
  have hgoals : ∀ c ∈ a.static.map θ.applyAtom, c.isProper := by
    refine List.forall_mem_map.mpr ?_
    intro b hb
    rw [hθ.applyAtom_eq]
    exact Atom.isProper_bind.mpr ⟨hstatic b hb, fun x _ => hθ.isProper_value x⟩
  split
  · rename_i hempty
    -- without static conditions there is one answer, which binds nothing
    rw [List.isEmpty_iff.mp hempty]
    refine ⟨_, rfl, ?_, fun h _ => ⟨_, List.mem_singleton_self _, ?_⟩⟩
    · intro pair hpair
      obtain rfl := List.mem_singleton.mp hpair
      exact ⟨rfl, isAnswer_nil entailed⟩
    · intro c hc
      exact absurd hc List.not_mem_nil
  · obtain ⟨found, next, hask, hsound, hcomplete⟩ := hkb.askAll_spec hentailed hgoals
    rw [hask]
    refine ⟨_, rfl, ?_, ?_⟩
    · intro pair hpair
      obtain ⟨extension, hextension, rfl⟩ := List.mem_map.mp hpair
      exact ⟨rfl, hsound extension hextension⟩
    · intro h hmem
      obtain ⟨extension, hextension, hvalue⟩ := hcomplete h hmem
      exact ⟨_, List.mem_map_of_mem hextension, hvalue⟩

/-- **The pairs of bindings are those that the required facts and the static conditions allow**, and
every assignment that turns both into facts agrees with one of them. -/
theorem bindings_spec (ha : a.isProper) (hfacts : ∀ f ∈ facts, f.Closed) {kb : KnowledgeBase}
    (hkb : kb.Proper) (hentailed : kb.closure = .ok entailed) :
    ∃ pairs, a.bindings facts (some kb) = .ok pairs ∧
    (∀ pair ∈ pairs, a.Allows facts entailed pair) ∧
      ∀ h : Variable → Term, (∀ b ∈ a.requires, b.bind h ∈ facts) →
        (∀ b ∈ a.static, b.bind h ∈ entailed) →
          ∃ pair ∈ pairs, pair.2.SolvedBy h ∧
            ∀ b ∈ a.static, ∀ x ∈ (pair.2.applyAtom b).vars, pair.1.value x = h x := by
  have hatoms := (Schema.isProper_iff.mp ha).2.2
  have hrequires : ∀ b ∈ a.requires, b.isProper := fun b hb => hatoms b (by simp [Schema.atoms, hb])
  have hstatic : ∀ b ∈ a.static, b.isProper := fun b hb => hatoms b (by simp [Schema.atoms, hb])
  have hmatches : ∀ θ ∈ satisfy facts a.requires ∅, Satisfies facts a.requires ∅ θ := fun θ hθ =>
    satisfies_of_mem_satisfy hfacts hrequires Substitution.closed_empty hθ
  obtain ⟨found, hfound, hpairs⟩ := exists_mapM_eq_ok fun θ hθ =>
    exists_extensions hstatic hkb hentailed (hmatches θ hθ).closed
  refine ⟨found.flatten, ?_, ?_, ?_⟩
  · unfold bindings
    simp only
    rw [hfound]
    rfl
  · intro pair hpair
    obtain ⟨extensions, hextensions, hpair⟩ := List.mem_flatten.mp hpair
    obtain ⟨θ, hθ, hsound, -⟩ := exists_of_mem_right hpairs hextensions
    obtain ⟨rfl, hanswer⟩ := hsound pair hpair
    exact ⟨hmatches _ hθ, hanswer⟩
  · -- the assignment extends a match of the required facts, and then an answer under this match
    intro h hmem hanswered
    obtain ⟨θ, hθ, hsolved⟩ := exists_mem_satisfy hfacts hrequires Substitution.closed_empty
      (Substitution.solvedBy_empty h) hmem
    obtain ⟨extensions, hextensions, hsound, hcomplete⟩ := exists_of_mem_left hpairs hθ
    obtain ⟨pair, hpair, hvalue⟩ := hcomplete h (List.forall_mem_map.mpr fun b hb => by
      rw [Substitution.bind_applyAtom hsolved]
      exact hanswered b hb)
    obtain ⟨rfl, -⟩ := hsound pair hpair
    exact ⟨pair, List.mem_flatten.mpr ⟨extensions, hextensions, hpair⟩, hsolved,
      fun b hb x hx => hvalue _ (List.mem_map_of_mem hb) x hx⟩

/-! ## Instantiation -/

/-- The parameters of an action under a substitution. -/
def parametersUnder (a : Action) (σ : Substitution) : List Term :=
  a.parameters.map fun p => σ.apply p.toTerm

theorem isProper_of_mem_parametersUnder (ha : a.isProper) (hσ : σ.Closed) :
    ∀ t ∈ a.parametersUnder σ, t.isProper := by
  refine List.forall_mem_map.mpr ?_
  intro p hp
  rw [hσ.apply_eq]
  exact Term.isProper_bind.mpr ⟨(Schema.isProper_iff.mp ha).2.1 p hp,
    fun x _ => hσ.isProper_value x⟩

theorem toTerm_of_ground (hσ : σ.Closed) (ha : a.isProper) (h : a.ground σ = .ok g) :
    g.parameters.map SimpleTerm.toTerm = a.parametersUnder σ := by
  rw [(isInstance_of_ground hσ ha h).1.parameters, parametersUnder]
  exact List.map_congr_left fun p _ => (hσ.apply_eq p.toTerm).symm

theorem instantiate_cons (hcompose : pair.1.compose pair.2 = .ok σ) (met : List (List Term))
    (rest : List (Substitution × Substitution)) : a.instantiate met (pair :: rest) =
      if !(a.parametersUnder σ).all Term.isGround then a.instantiate met rest
      else if !(a.parametersUnder σ).all Term.isIndexable then .error .wrongType
      else if met.contains (a.parametersUnder σ) then a.instantiate met rest
      else do
        let grounded ← a.ground σ
        let others ← a.instantiate (met ++ [a.parametersUnder σ]) rest
        return grounded :: others := by
  rw [instantiate, hcompose]
  rfl

/-- What instantiating an action under pairs gives: every ground action comes from a pair, and every
pair that leaves no parameter open has its parameters among those met or those of a ground
action. -/
structure Instantiated (a : Action) (met : List (List Term))
    (pairs : List (Substitution × Substitution)) (grounded : List Action) : Prop where
  sound : ∀ g ∈ grounded, ∃ pair ∈ pairs, ∃ σ, pair.1.compose pair.2 = .ok σ ∧ a.ground σ = .ok g
  complete : ∀ pair ∈ pairs, ∀ σ, pair.1.compose pair.2 = .ok σ →
    (∀ t ∈ a.parametersUnder σ, t.isGround) → a.parametersUnder σ ∈ met ∨
      ∃ g ∈ grounded, g.parameters.map SimpleTerm.toTerm = a.parametersUnder σ

section

variable {met : List (List Term)} {rest : List (Substitution × Substitution)}
  {grounded : List Action}

theorem instantiated_nil (met : List (List Term)) : a.Instantiated met [] [] :=
  ⟨fun _ hg => absurd hg List.not_mem_nil, fun _ hpair => absurd hpair List.not_mem_nil⟩

/-- A pair is passed over when it leaves a parameter open or its parameters have been met. -/
theorem Instantiated.skip (h : a.Instantiated met rest grounded)
    (hcompose : pair.1.compose pair.2 = .ok σ)
    (hmet : (∀ t ∈ a.parametersUnder σ, t.isGround) → a.parametersUnder σ ∈ met) :
    a.Instantiated met (pair :: rest) grounded := by
  refine ⟨?_, List.forall_mem_cons.mpr ⟨?_, h.complete⟩⟩
  · intro g hg
    obtain ⟨other, hother, hgrounded⟩ := h.sound g hg
    exact ⟨other, List.mem_cons_of_mem _ hother, hgrounded⟩
  · intro τ hτ hground
    obtain rfl := Except.ok.inj (hcompose.symm.trans hτ)
    exact Or.inl (hmet hground)

/-- A pair whose parameters are new adds a ground action. -/
theorem Instantiated.keep {first : Action}
    (h : a.Instantiated (met ++ [a.parametersUnder σ]) rest grounded)
    (hcompose : pair.1.compose pair.2 = .ok σ) (hground : a.ground σ = .ok first)
    (hparameters : first.parameters.map SimpleTerm.toTerm = a.parametersUnder σ) :
    a.Instantiated met (pair :: rest) (first :: grounded) := by
  constructor
  · intro g hg
    rcases List.mem_cons.mp hg with rfl | hg
    · exact ⟨pair, List.mem_cons_self, σ, hcompose, hground⟩
    · obtain ⟨other, hother, hgrounded⟩ := h.sound g hg
      exact ⟨other, List.mem_cons_of_mem _ hother, hgrounded⟩
  · intro other hother τ hτ hall
    rcases List.mem_cons.mp hother with rfl | hother
    · obtain rfl := Except.ok.inj (hcompose.symm.trans hτ)
      exact Or.inr ⟨first, List.mem_cons_self, hparameters⟩
    · rcases h.complete other hother τ hτ hall with hmem | ⟨g, hg, hsame⟩
      · rcases List.mem_append.mp hmem with hmem | hmem
        · exact Or.inl hmem
        · have hsame := List.mem_singleton.mp hmem
          exact Or.inr ⟨first, List.mem_cons_self, hparameters.trans hsame.symm⟩
      · exact Or.inr ⟨g, List.mem_cons_of_mem _ hg, hsame⟩

end

/-- **Instantiation grounds an action under each pair once.** -/
theorem instantiate_spec (ha : a.isProper) {pairs : List (Substitution × Substitution)}
    (hclosed : ∀ pair ∈ pairs, pair.1.Closed ∧ pair.2.Closed) {met : List (List Term)}
    {grounded : List Action} (h : a.instantiate met pairs = .ok grounded) :
    a.Instantiated met pairs grounded := by
  -- induction on the pairs; `met` grows by the parameters of every grounding
  induction pairs generalizing met grounded with
  | nil =>
      obtain rfl := Except.ok.inj h
      exact instantiated_nil met
  | cons pair rest ih =>
      obtain ⟨⟨houter, hinner⟩, hrest⟩ := List.forall_mem_cons.mp hclosed
      obtain ⟨σ, hcompose, hσ, -⟩ := houter.compose_spec hinner
      rw [instantiate_cons hcompose] at h
      split at h
      · rename_i hopen
        refine (ih hrest h).skip hcompose ?_
        intro hground
        rw [List.all_eq_true.mpr hground] at hopen
        cases hopen
      · split at h
        · cases h
        · split at h
          · rename_i hmet
            refine (ih hrest h).skip hcompose ?_
            intro _
            rw [List.contains_eq_any_beq] at hmet
            obtain ⟨ts, hts, hsame⟩ := List.any_eq_true.mp hmet
            have hproper := isProper_of_mem_parametersUnder ha hσ
            have heq : a.parametersUnder σ = ts :=
              eq_of_list_beq (fun t ht _ _ => Term.eq_of_beq_of_isProper (hproper t ht)) hsame
            rw [heq]
            exact hts
          · obtain ⟨first, hground, h⟩ := bind_eq_ok.mp h
            obtain ⟨others, hothers, h⟩ := bind_eq_ok.mp h
            obtain rfl := Except.ok.inj h
            exact (ih hrest hothers).keep hcompose hground (toTerm_of_ground hσ ha hground)

/-- No parameters are met twice, and none that have been met before. -/
theorem fresh_of_instantiate (ha : a.isProper) {pairs : List (Substitution × Substitution)}
    (hclosed : ∀ pair ∈ pairs, pair.1.Closed ∧ pair.2.Closed) {met : List (List Term)}
    {grounded : List Action} (h : a.instantiate met pairs = .ok grounded) :
    (∀ g ∈ grounded, g.parameters.map SimpleTerm.toTerm ∉ met) ∧
      (grounded.map fun g => g.parameters.map SimpleTerm.toTerm).Nodup := by
  induction pairs generalizing met grounded with
  | nil =>
      obtain rfl := Except.ok.inj h
      simp
  | cons pair rest ih =>
      obtain ⟨⟨houter, hinner⟩, hrest⟩ := List.forall_mem_cons.mp hclosed
      obtain ⟨σ, hcompose, hσ, -⟩ := houter.compose_spec hinner
      rw [instantiate_cons hcompose] at h
      split at h
      · exact ih hrest h
      · split at h
        · cases h
        · split at h
          · exact ih hrest h
          · rename_i hnew
            obtain ⟨first, hground, h⟩ := bind_eq_ok.mp h
            obtain ⟨others, hothers, h⟩ := bind_eq_ok.mp h
            obtain rfl := Except.ok.inj h
            obtain ⟨hfresh, hnodup⟩ := ih hrest hothers
            have hfirst := toTerm_of_ground hσ ha hground
            have hunmet : a.parametersUnder σ ∉ met :=
              fun hmem => hnew (List.elem_eq_true_of_mem hmem)
            -- the parameters have not been met, and later groundings have others since they are met
            -- now
            refine ⟨List.forall_mem_cons.mpr ⟨?_, ?_⟩, List.nodup_cons.mpr ⟨?_, hnodup⟩⟩
            · rw [hfirst]
              exact hunmet
            · intro g hg hmem
              exact hfresh g hg (List.mem_append_left _ hmem)
            · intro hmem
              obtain ⟨g, hg, hsame⟩ := List.mem_map.mp hmem
              have hsame : g.parameters.map SimpleTerm.toTerm = a.parametersUnder σ :=
                hsame.trans hfirst
              exact hfresh g hg (List.mem_append_right _ (List.mem_singleton.mpr hsame))

/-! ## Groundings -/

theorem exists_const_of_mem_vars {h : Variable → Term}
    (hparameters : ∀ p ∈ a.parameters, ∃ c, p.toTerm.bind h = .const c) {x : Variable}
    (hx : x ∈ a.vars) :
    ∃ c, h x = .const c := by
  obtain ⟨p, hp, hxp⟩ := List.mem_flatMap.mp hx
  obtain ⟨c, hc⟩ := hparameters p hp
  cases p with
  | const => exact absurd hxp List.not_mem_nil
  | listed => exact absurd hxp List.not_mem_nil
  | var y =>
      obtain rfl := List.mem_singleton.mp hxp
      exact ⟨c, hc⟩

/-- In a ground instance every parameter has become a constant. -/
theorem exists_const_of_isInstance {h : Variable → Term} (ha : a.isProper)
    (hvalues : ∀ x, (h x).isProper) (hinstance : a.IsInstance h g.toSchema) (hground : g.isGround)
    {p : SimpleTerm} (hp : p ∈ a.parameters) :
    ∃ c, p.toTerm.bind h = .const c := by
  have hproper : (p.toTerm.bind h).isProper := Term.isProper_bind.mpr
    ⟨(Schema.isProper_iff.mp ha).2.1 p hp, fun x _ => hvalues x⟩
  have hvalue : p.toTerm.bind h ∈ g.parameters.map SimpleTerm.toTerm := by
    rw [hinstance.parameters]
    exact List.mem_map_of_mem hp
  obtain ⟨q, hq, hqvalue⟩ := List.mem_map.mp hvalue
  have hconstant := List.all_eq_true.mp hground q hq
  rw [← hqvalue] at hproper ⊢
  cases q with
  | const c => exact ⟨c, rfl⟩
  | var => cases hconstant
  | listed => cases hproper

theorem exists_const_of_ground (hσ : σ.Closed) (ha : a.isProper) (h : a.ground σ = .ok g)
    {x : Variable} (hx : x ∈ a.vars) : ∃ c, σ.value x = .const c := by
  obtain ⟨hinstance, hground⟩ := isInstance_of_ground hσ ha h
  exact exists_const_of_mem_vars (fun p hp =>
    exists_const_of_isInstance ha hσ.isProper_value hinstance hground hp) hx

/-- What is known of a grounding: the substitution that it comes from, and what that substitution
makes of the required facts and of the static conditions. -/
structure IsGrounding (facts entailed : List Atom) (a : Action) (σ : Substitution)
    (g : Action) : Prop where
  ground : a.ground σ = .ok g
  closed : σ.Closed
  instance_of : a.IsInstance σ.value g.toSchema
  isGround : g.isGround
  constants : ∀ x ∈ a.vars, ∃ c, σ.value x = .const c
  determined : ∀ x ∈ a.vars, a.Determined x
  required : ∀ b ∈ a.requires, b.bind σ.value ∈ facts
  entailed : ∀ b ∈ a.static, b.bind σ.value ∈ entailed

namespace IsGrounding

theorem closed_of_mem (ha : a.isProper) (h : a.IsGrounding facts entailed σ g) {as : List Atom}
    (has : ∀ b ∈ as, b ∈ a.atoms) {c : Atom} (hc : c ∈ (as.map (·.bind σ.value)).eraseDups) :
    c.Closed := by
  obtain ⟨b, hb, rfl⟩ := List.mem_map.mp (mem_of_mem_eraseDups hc)
  refine Atom.closed_bind.mpr ⟨(Schema.isProper_iff.mp ha).2.2 b (has b hb), ?_⟩
  intro x hx
  obtain ⟨k, hk⟩ := h.constants x (a.mem_vars (has b hb) hx)
  rw [hk]
  exact ⟨rfl, rfl⟩

theorem closed_adds (ha : a.isProper) (h : a.IsGrounding facts entailed σ g) :
    ∀ c ∈ g.adds, c.Closed := by
  rw [h.instance_of.adds]
  intro c
  exact h.closed_of_mem ha (by simp +contextual [Schema.atoms])

theorem static_subset (h : a.IsGrounding facts entailed σ g) : g.static ⊆ entailed := by
  intro c hc
  rw [h.instance_of.static] at hc
  obtain ⟨b, hb, rfl⟩ := List.mem_map.mp (mem_of_mem_eraseDups hc)
  exact h.entailed b hb

end IsGrounding

section

variable {kb : KnowledgeBase} {grounded : List Action}

theorem groundings_eq_ok {pairs : List (Substitution × Substitution)}
    (hpairs : a.bindings facts (some kb) = .ok pairs) :
    a.groundings facts (some kb) = a.instantiate [] pairs := by
  rw [groundings, hpairs, ok_bind]

/-- **Every grounding is an instance whose required facts are there and whose static conditions are
entailed.** -/
theorem exists_of_mem_groundings (ha : a.isProper) (hfacts : ∀ f ∈ facts, f.Closed)
    (hkb : kb.Proper) (hentailed : kb.closure = .ok entailed)
    (h : a.groundings facts (some kb) = .ok grounded) (hg : g ∈ grounded) :
    ∃ σ, a.IsGrounding facts entailed σ g := by
  obtain ⟨pairs, hpairs, hallows, -⟩ := bindings_spec ha hfacts hkb hentailed
  rw [groundings_eq_ok hpairs] at h
  obtain ⟨hsound, -⟩ := instantiate_spec ha (fun pair hpair =>
    ⟨(hallows pair hpair).answered.closed, (hallows pair hpair).matched.closed⟩) h
  obtain ⟨pair, hpair, τ, hcompose, hground⟩ := hsound g hg
  have hallow := hallows pair hpair
  obtain ⟨σ, hσcompose, hσ, hlookup⟩ := hallow.answered.closed.compose_spec hallow.matched.closed
  obtain rfl := Except.ok.inj (hσcompose.symm.trans hcompose)
  obtain ⟨hinstance, hisGround⟩ := isInstance_of_ground hσ ha hground
  refine ⟨σ, hground, hσ, hinstance, hisGround, fun x => exists_const_of_ground hσ ha hground,
    ?_, fun b hb => hallow.requires_mem hfacts hlookup hb,
    fun b hb => hallow.static_mem hlookup hb⟩
  intro x hx
  obtain ⟨c, hc⟩ := exists_const_of_ground hσ ha hground hx
  exact hallow.determined hlookup (by rw [hc]; rfl)

/-- **No two groundings have the same parameters.** -/
theorem nodup_groundings (ha : a.isProper) (hfacts : ∀ f ∈ facts, f.Closed) (hkb : kb.Proper)
    (h : a.groundings facts (some kb) = .ok grounded) :
    (grounded.map fun g => g.parameters.map SimpleTerm.toTerm).Nodup := by
  obtain ⟨entailed, hentailed, -⟩ := hkb.exists_closure
  obtain ⟨pairs, hpairs, hallows, -⟩ := bindings_spec ha hfacts hkb hentailed
  rw [groundings_eq_ok hpairs] at h
  exact (fresh_of_instantiate ha (fun pair hpair =>
    ⟨(hallows pair hpair).answered.closed, (hallows pair hpair).matched.closed⟩) h).2

/-- A composition agrees with an assignment that both substitutions agree with. -/
theorem Allows.value_eq (hpair : a.Allows facts entailed pair)
    (hlookup : ∀ name, σ.lookup name = (pair.2.lookup name).or (pair.1.lookup name))
    {k : Variable → Term} (hsolved : pair.2.SolvedBy k)
    (hanswer : ∀ b ∈ a.static, ∀ x ∈ (pair.2.applyAtom b).vars, pair.1.value x = k x) {x : Variable}
    (hx : a.Determined x) : σ.value x = k x := by
  have hclosed := hpair.matched.closed
  rw [value_eq_bind_value hclosed hlookup]
  by_cases hinner : x.name ∈ pair.2.names
  · rw [Term.Closed.bind_eq (Substitution.value_of_mem_names hclosed hinner)]
    exact hclosed.value_eq hsolved hinner
  · have hvalue : pair.2.value x = .var x := by
      rw [Substitution.value, Substitution.lookup_eq_none_iff.mpr hinner]
      rfl
    obtain ⟨b, hb, hxb⟩ := hx
    rcases List.mem_append.mp hb with hb | hb
    · exact absurd (hpair.matched.bound b hb x hxb) hinner
    · rw [hvalue, Term.bind_var]
      refine hanswer b hb x ?_
      rw [hclosed.applyAtom_eq]
      exact Atom.mem_vars_bind.mpr ⟨x, hxb, by rw [hvalue]; exact List.mem_singleton_self x⟩

theorem parametersUnder_eq (a : Action) {σ : Substitution} (hσ : σ.Closed) {k : Variable → Term}
    (hvalue : ∀ x ∈ a.vars, σ.value x = k x) :
    a.parametersUnder σ = a.parameters.map fun p => p.toTerm.bind k := by
  refine List.map_congr_left ?_
  intro p hp
  rw [hσ.apply_eq]
  exact Term.bind_congr fun x hx => hvalue x (List.mem_flatMap.mpr ⟨p, hp, hx⟩)

theorem isGround_of_mem_bound (a : Action) (ha : a.isProper) {k : Variable → Term}
    (hground : ∀ x ∈ a.vars, (k x).Closed) :
    ∀ t ∈ a.parameters.map fun p => p.toTerm.bind k, t.isGround := by
  refine List.forall_mem_map.mpr ?_
  intro p hp
  have hproper := (Schema.isProper_iff.mp ha).2.1 p hp
  have hclosed : (p.toTerm.bind k).Closed := Term.closed_bind.mpr ⟨hproper, fun x hx =>
    hground x (List.mem_flatMap.mpr ⟨p, hp, hx⟩)⟩
  exact (Term.isGround_iff_closed hclosed.1).mpr hclosed

/-- **Every assignment to determined variables that turns required facts and static conditions into
facts has its instance among the groundings.** -/
theorem exists_mem_groundings (ha : a.isProper) (hfacts : ∀ f ∈ facts, f.Closed) (hkb : kb.Proper)
    (hentailed : kb.closure = .ok entailed) (h : a.groundings facts (some kb) = .ok grounded)
    {k : Variable → Term} (hdetermined : ∀ x ∈ a.vars, a.Determined x)
    (hground : ∀ x ∈ a.vars, (k x).Closed) (hrequired : ∀ b ∈ a.requires, b.bind k ∈ facts)
    (hstatic : ∀ b ∈ a.static, b.bind k ∈ entailed) :
    ∃ g ∈ grounded, a.IsInstance k g.toSchema := by
  obtain ⟨pairs, hpairs, hallows, hcomplete⟩ := bindings_spec ha hfacts hkb hentailed
  rw [groundings_eq_ok hpairs] at h
  obtain ⟨hsound, hinstances⟩ := instantiate_spec ha (fun pair hpair =>
    ⟨(hallows pair hpair).answered.closed, (hallows pair hpair).matched.closed⟩) h
  obtain ⟨pair, hpair, hsolved, hanswer⟩ := hcomplete k hrequired hstatic
  have hallow := hallows pair hpair
  obtain ⟨σ, hcompose, hσ, hlookup⟩ := hallow.answered.closed.compose_spec hallow.matched.closed
  have hvalue : ∀ x ∈ a.vars, σ.value x = k x := fun x hx =>
    hallow.value_eq hlookup hsolved hanswer (hdetermined x hx)
  have hunder := a.parametersUnder_eq hσ hvalue
  have hall : ∀ t ∈ a.parametersUnder σ, t.isGround := by
    rw [hunder]
    exact a.isGround_of_mem_bound ha hground
  rcases hinstances pair hpair σ hcompose hall with hmet | ⟨g, hg, hparameters⟩
  · exact absurd hmet List.not_mem_nil
  · -- the grounding may come from another pair, but not with other parameters
    refine ⟨g, hg, ?_⟩
    obtain ⟨other, hother, τ, hτcompose, hτground⟩ := hsound g hg
    have hτallow := hallows other hother
    obtain ⟨τ', hτ', hτclosed, -⟩ := hτallow.answered.closed.compose_spec hτallow.matched.closed
    obtain rfl := Except.ok.inj (hτ'.symm.trans hτcompose)
    have hinstance := (isInstance_of_ground hτclosed ha hτground).1
    refine hinstance.congr fun x hx => Schema.eq_of_parameters_eq ?_ hx
    rw [← hinstance.parameters, hparameters, hunder]

/-- **More facts have at least as many groundings.** -/
theorem groundings_mono (ha : a.isProper) {more : List Atom} (hmore : ∀ f ∈ more, f.Closed)
    (hsub : facts ⊆ more) (hkb : kb.Proper) (h : a.groundings facts (some kb) = .ok grounded)
    {larger : List Action} (hlarger : a.groundings more (some kb) = .ok larger)
    (hg : g ∈ grounded) :
    ∃ g' ∈ larger, g'.adds = g.adds := by
  obtain ⟨entailed, hentailed, -⟩ := hkb.exists_closure
  obtain ⟨σ, hgrounding⟩ :=
    exists_of_mem_groundings ha (fun f hf => hmore f (hsub hf)) hkb hentailed h hg
  obtain ⟨g', hg', hinstance⟩ :=
    exists_mem_groundings ha hmore hkb hentailed hlarger hgrounding.determined
    (fun x hx => by obtain ⟨c, hc⟩ := hgrounding.constants x hx; rw [hc]; exact ⟨rfl, rfl⟩)
    (fun b hb => hsub (hgrounding.required b hb)) hgrounding.entailed
  exact ⟨g', hg', by rw [hinstance.adds, hgrounding.instance_of.adds]⟩

end

end HornPlan.Action
