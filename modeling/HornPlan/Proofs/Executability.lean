import HornPlan.Proofs.Calls
import HornPlan.Proofs.FlatFacts
import HornPlan.Worlds.Blocks

/-!
# What is listed and what can be executed

There are two ways to an action that can be taken in a state.  One lists them: it joins the facts of
the state with the required facts of a schema, asks for all answers to the static conditions, and
merges what has the same parameters.  The other starts from constants that are given for the
parameters of a schema and checks the action that they make, fact by fact.

Both agree (`Proper.lists_of_applicableActions`).  An action made from a schema of which every
variable occurs in a required fact or a static condition is listed exactly when it can be executed,
and whatever is listed is made of constants given for the parameters of a schema.  A schema with
another variable is never listed, and no schema lists an action twice.
-/

namespace HornPlan

namespace Action

variable {a g : Action} {σ τ : Substitution} {cs : List Constant}

/-! ## Constants for parameters -/

theorem closed_of_args_eq (ha : a.isProper) (cs : List Constant) :
    Atom.Closed ⟨a.name, cs.map Term.const⟩ := by
  have hname := (Schema.isProper_iff.mp ha).1
  constructor
  · exact Atom.isProper_iff.mpr ⟨hname, List.forall_mem_map.mpr fun c _ => rfl⟩
  · rw [List.eq_nil_iff_forall_not_mem]
    intro x hx
    obtain ⟨t, ht, hxt⟩ := Term.mem_vars_app.mp hx
    obtain ⟨c, -, rfl⟩ := List.mem_map.mp ht
    exact absurd hxt List.not_mem_nil

theorem bind_signature (hσ : σ.Closed) :
    a.signature.bind σ.value = ⟨a.name, a.parametersUnder σ⟩ := by
  simp only [Schema.signature, Atom.bind, parametersUnder, List.map_map, Function.comp_def,
    hσ.apply_eq]

/-- Substitutions by closed terms that agree on the parameters ground an action alike. -/
theorem ground_congr (hσ : σ.Closed) (hτ : τ.Closed) (ha : a.isProper)
    (heq : a.parametersUnder σ = a.parametersUnder τ) (h : a.ground σ = .ok g) :
    a.ground τ = .ok g := by
  have hvalue : ∀ x ∈ a.vars, σ.value x = τ.value x := by
    intro x hx
    refine Schema.eq_of_parameters_eq ?_ hx
    simpa only [parametersUnder, hσ.apply_eq, hτ.apply_eq] using heq
  obtain ⟨hinstantiated, hground⟩ := (ground_eq_ok hσ ha).mp h
  rw [instantiated?_congr hvalue] at hinstantiated
  exact (ground_eq_ok hτ ha).mpr ⟨hinstantiated, hground⟩

/-- **Giving constants for the parameters grounds an action by a substitution that puts them
there**, and any such substitution grounds it to the same action. -/
theorem call_eq_ok (ha : a.isProper) : a.call (cs.map .const) = .ok g ↔
    ∃ σ, σ.Closed ∧ a.parametersUnder σ = cs.map .const ∧ a.ground σ = .ok g := by
  have hsignature := isProper_signature ha
  have hgiven := closed_of_args_eq ha cs
  rw [call_eq ha (List.forall_mem_map.mpr fun c _ => rfl)]
  split
  · -- there are too few constants, or too many
    rename_i hlength
    refine iff_of_false (by rintro ⟨⟩) ?_
    rintro ⟨σ, -, hparameters, -⟩
    have hsame := congrArg List.length hparameters
    rw [parametersUnder, List.length_map] at hsame
    exact hlength hsame.symm
  · cases hunify : (∅ : Substitution).unifyAtoms? a.signature ⟨a.name, cs.map .const⟩ with
    | none =>
        refine iff_of_false (by rintro ⟨⟩) ?_
        rintro ⟨σ, hσ, hparameters, -⟩
        refine Substitution.ne_of_unifyAtoms?_eq_none Substitution.closed_empty hsignature
          hgiven hunify (Substitution.solvedBy_empty σ.value) ?_
        rw [bind_signature hσ, hparameters]
    | some θ =>
        have hmatch :=
          Substitution.matches_of_unifyAtoms? Substitution.closed_empty hsignature hgiven hunify
        have hbound := ((hmatch.solvedBy _).mp hmatch.closed.solvedBy_value).2
        rw [bind_signature hmatch.closed] at hbound
        have hparameters : a.parametersUnder θ = cs.map .const := congrArg Atom.args hbound
        constructor
        · intro hground
          exact ⟨θ, hmatch.closed, hparameters, hground⟩
        · rintro ⟨σ, hσ, hσparameters, hground⟩
          exact ground_congr hσ hmatch.closed ha (hσparameters.trans hparameters.symm) hground

/-- A grounding is what constants for the parameters make of its schema. -/
theorem IsGrounding.exists_call {facts entailed : List Atom} (ha : a.isProper)
    (h : a.IsGrounding facts entailed σ g) :
    ∃ cs : List Constant, a.call (cs.map .const) = .ok g := by
  obtain ⟨cs, hcs⟩ := exists_constants h.closed ha h.constants
  exact ⟨cs, (call_eq_ok ha).mpr ⟨σ, h.closed, hcs, h.ground⟩⟩

end Action

namespace Problem

variable {p : Problem} {s : State} {schema : Action} {a : Action} {cs : List Constant}

/-! ## The actions of one schema -/

/-- What one schema contributes to the actions that are listed in a state. -/
structure Contributes (p : Problem) (s : State) (schema : Action) (part : List Action) : Prop where
  enabled : ∃ grounded, schema.groundings (p.order.listing s) p.knowledge = .ok grounded ∧
    part = grounded.filter (·.enabled s)
  nodup : part.Nodup
  undetermined : ∀ x ∈ schema.vars, ¬schema.Determined x → part = []

/-- An action made of constants can be executed only when it is among the groundings of its
schema. -/
theorem Proper.mem_groundings_of_isExecutable (hp : p.Proper) (hs : s.Proper)
    (hschema : schema ∈ p.actions) (hdetermined : ∀ x ∈ schema.vars, schema.Determined x)
    (hcall : schema.call (cs.map .const) = .ok a) (hexecutable : p.isExecutable a s = .ok true)
    {grounded : List Action}
    (hgrounded : schema.groundings (p.order.listing s) p.knowledge = .ok grounded) :
    a ∈ grounded ∧ a.enabled s := by
  have hproper := hp.actions schema hschema
  have hatoms := (Schema.isProper_iff.mp hproper).2.2
  obtain ⟨entailed, hentailed, hknowledge, hclosure⟩ := hp.exists_knowledge
  obtain ⟨σ, hσ, hparameters, hground⟩ := (Action.call_eq_ok hproper).mp hcall
  obtain ⟨hinstance, hisGround⟩ := Action.isInstance_of_ground hσ hproper hground
  -- every variable of the schema stands for one of the constants
  have hvalues : ∀ x ∈ schema.vars, (σ.value x).Closed := fun x hx => by
    obtain ⟨c, hc⟩ := Action.exists_const_of_ground hσ hproper hground hx
    rw [hc]
    exact ⟨rfl, rfl⟩
  have hbound : ∀ b ∈ schema.atoms, (b.bind σ.value).Closed := fun b hb =>
    Atom.closed_bind.mpr ⟨hatoms b hb, fun x hx => hvalues x (schema.mem_vars hb hx)⟩
  have hmem : ∀ as : List Atom, (∀ b ∈ as, b ∈ schema.atoms) → ∀ c,
      c ∈ (as.map (·.bind σ.value)).eraseDups ↔ c ∈ as.map (·.bind σ.value) := fun as hsub c =>
    Atom.mem_eraseDups_iff (List.forall_mem_map.mpr fun b hb => (hbound b (hsub b hb)).1)
  have hstatic : ∀ c, c ∈ a.static ↔ c ∈ schema.static.map (·.bind σ.value) := by
    rw [hinstance.static]
    exact hmem _ (by simp +contextual [Schema.atoms])
  have hrequires : ∀ c, c ∈ a.requires ↔ c ∈ schema.requires.map (·.bind σ.value) := by
    rw [hinstance.requires]
    exact hmem _ (by simp +contextual [Schema.atoms])
  have hclosed : ∀ c ∈ a.static, c.Closed := by
    intro c hc
    obtain ⟨b, hb, rfl⟩ := List.mem_map.mp ((hstatic c).mp hc)
    exact hbound b (by simp [Schema.atoms, hb])
  obtain ⟨hsub, henabled⟩ := (hp.isExecutable_iff hentailed hisGround hclosed s).mp hexecutable
  have hrequired := List.all_eq_true.mp (Bool.and_eq_true_iff.mp henabled).1
  obtain ⟨g, hg, hginstance⟩ := Action.exists_mem_groundings hproper
    (fun f hf => hs.closed f (Enumeration.mem_listing.mp hf)) hknowledge hclosure hgrounded
    hdetermined hvalues
    (fun b hb => Enumeration.mem_listing.mpr (hs.holdsFact_iff.mp
      (hrequired _ ((hrequires _).mpr (List.mem_map_of_mem hb)))))
    (fun b hb => hsub ((hstatic _).mpr (List.mem_map_of_mem hb)))
  have heq : g = a := hginstance.eq hinstance
  exact ⟨heq ▸ hg, henabled⟩

theorem Proper.contributes (hp : p.Proper) (hs : s.Proper) (hschema : schema ∈ p.actions)
    {grounded : List Action}
    (hgrounded : schema.groundings (p.order.listing s) p.knowledge = .ok grounded) :
    p.Contributes s schema (grounded.filter (·.enabled s)) := by
  obtain ⟨entailed, hentailed, hknowledge, hclosure⟩ := hp.exists_knowledge
  have hproper := hp.actions schema hschema
  have hfacts : ∀ f ∈ p.order.listing s, f.Closed :=
    fun f hf => hs.closed f (Enumeration.mem_listing.mp hf)
  have hnodup : grounded.Nodup :=
    List.Nodup.of_map _ (Action.nodup_groundings hproper hfacts hknowledge hgrounded)
  refine ⟨⟨grounded, hgrounded, rfl⟩, hnodup.filter _, ?_⟩
  intro x hx hnot
  rw [List.eq_nil_iff_forall_not_mem]
  intro a ha
  obtain ⟨σ, hσ⟩ := Action.exists_of_mem_groundings hproper hfacts hknowledge hclosure hgrounded
    (List.mem_filter.mp ha).1
  exact hnot (hσ.determined x hx)

/-! ## All actions -/

/-- The actions that can be executed in a state are listed. -/
structure Lists (p : Problem) (s : State) (listed : List Action) : Prop where
  /-- An action of a schema whose variables are all determined is listed when it can be executed. -/
  mem_iff : ∀ schema ∈ p.actions, (∀ x ∈ schema.vars, schema.Determined x) →
    ∀ (cs : List Constant) (a : Action), schema.call (cs.map .const) = .ok a →
      (a ∈ listed ↔ p.isExecutable a s = .ok true)
  /-- What is listed can be executed and is made of constants. -/
  executable : ∀ a ∈ listed, p.isExecutable a s = .ok true ∧
    ∃ schema ∈ p.actions, ∃ cs : List Constant, schema.call (cs.map .const) = .ok a
  parts : ∃ parts, listed = parts.flatten ∧ List.Forall₂ (p.Contributes s) p.actions parts

/-- **The actions listed in a state are those that can be executed there**, as far as their schemas
determine all variables; schemas that do not are not listed at all, and no schema lists an action
twice. -/
theorem Proper.lists_of_applicableActions (hp : p.Proper) (hs : s.Proper) {listed : List Action}
    (h : p.applicableActions s = .ok listed) : p.Lists s listed := by
  obtain ⟨parts, rfl, hparts⟩ := exists_parts hs h
  have hexecutable : ∀ a ∈ parts.flatten, p.isExecutable a s = .ok true ∧
      ∃ schema ∈ p.actions, ∃ cs : List Constant, schema.call (cs.map .const) = .ok a := by
    intro a ha
    obtain ⟨part, hpart, ha⟩ := List.mem_flatten.mp ha
    obtain ⟨schema, hschema, grounded, hgrounded, rfl⟩ := exists_of_mem_right hparts hpart
    obtain ⟨hmem, henabled⟩ := List.mem_filter.mp ha
    have hat := hp.groundedAt hs hschema hgrounded hmem
    refine ⟨(hp.isExecutable_iff_of_groundedAt hat).mpr henabled, ?_⟩
    obtain ⟨origin, horigin, entailed, σ, -, hσ⟩ := hat
    exact ⟨origin, horigin, hσ.exists_call (hp.actions origin horigin)⟩
  -- what is left: no action is missed, and what each schema contributes
  refine ⟨?_, hexecutable, parts, rfl, ?_⟩
  · intro schema hschema hdetermined cs a hcall
    refine ⟨fun ha => (hexecutable a ha).1, ?_⟩
    intro hexecutable
    obtain ⟨part, hpart, grounded, hgrounded, rfl⟩ := exists_of_mem_left hparts hschema
    have hmem :=
      hp.mem_groundings_of_isExecutable hs hschema hdetermined hcall hexecutable hgrounded
    exact List.mem_flatten.mpr ⟨_, hpart, List.mem_filter.mpr hmem⟩
  · have hmembers : List.Forall₂ (fun schema part => schema ∈ p.actions ∧
        ∃ grounded, schema.groundings (p.order.listing s) p.knowledge = .ok grounded ∧
          part = grounded.filter (·.enabled s)) p.actions parts :=
      (List.forall₂_and_left _ _).mpr ⟨fun _ h => h, hparts⟩
    refine hmembers.imp ?_
    rintro schema part ⟨hschema, grounded, hgrounded, rfl⟩
    exact hp.contributes hs hschema hgrounded

theorem exists_threeBlockTower : ∃ p, Worlds.threeBlockTower = .ok p ∧ p.Proper :=
  exists_ok_of_isProper (by decide +kernel)

/-- The clear blocks can be moved; whether two of them differ is entailed in one direction only by a
rule. -/
theorem lists_of_applicableActions_threeBlockTower : ∃ p listed, Worlds.threeBlockTower = .ok p ∧
    p.Proper ∧ p.initialState.Proper ∧ p.applicableActions p.initialState = .ok listed ∧
    p.Lists p.initialState listed := by
  obtain ⟨p, htower, hproper⟩ := exists_threeBlockTower
  obtain ⟨entailed, hentailed, -⟩ := hproper.kb.exists_closure
  have hflat :
      (Worlds.threeBlockTower.toOption.bind fun p => p.kb.closure.toOption.map fun entailed =>
      (p.initialState.facts ++ entailed).all Atom.isFlat) = some true := by
    decide +kernel
  rw [htower] at hflat
  change p.kb.closure.toOption.map _ = some true at hflat
  rw [hentailed] at hflat
  obtain ⟨listed, hlisted⟩ := hproper.exists_applicableActions hproper.initialState hentailed
    (List.all_eq_true.mp (Option.some.inj hflat))
  exact ⟨p, listed, htower, hproper, hproper.initialState, hlisted,
    hproper.lists_of_applicableActions hproper.initialState hlisted⟩

end Problem

end HornPlan
