import HornPlan.Problem
import HornPlan.Proofs.Entailment
import HornPlan.Proofs.Groundings

/-!
# Problems, their steps and their paths

A problem is *proper* when its clauses, its actions and its goals are, and `make?` makes a proper
problem of proper parts (`proper_of_make?`).

The successors of a state are the outcomes of the groundings that are enabled in it.  Each can be
executed: its static conditions were found by asking for all answers, and asking for one finds one
again (`Proper.executes`).  A path follows successors from one state to the next; a state is
*hopeless* when no path from it reaches the goal.
-/

namespace HornPlan.Problem

/-- All clauses, actions and goals are proper. -/
structure Proper (p : Problem) : Prop where
  kb : p.kb.Proper
  actions : ∀ a ∈ p.actions, a.isProper
  goals : ∀ goals, p.goal = .conjunction goals → ∀ g ∈ goals, g.isProper

/-- Whether all clauses, actions and goals are proper, where nothing is cached. -/
def isProper (p : Problem) : Bool :=
  p.kb.cached.isNone && p.kb.clauses.all Clause.isProper && p.actions.all (·.isProper)
    && (p.goals?.getD []).all Atom.isProper

variable {p : Problem}

theorem goals?_eq_some {goals : List Atom} :
    p.goals? = some goals ↔ p.goal = .conjunction goals := by
  rw [goals?]
  cases p.goal <;> simp

theorem proper_of_isProper (h : p.isProper) : p.Proper := by
  simp only [isProper, Bool.and_eq_true, Option.isNone_iff_eq_none, List.all_eq_true] at h
  obtain ⟨⟨⟨hcached, hclauses⟩, hactions⟩, hgoals⟩ := h
  refine ⟨⟨hclauses, fun facts hfacts => by cases hcached.symm.trans hfacts⟩, hactions,
    fun goals heq => ?_⟩
  rwa [goals?, heq] at hgoals

theorem exists_ok_of_isProper {made : Except Error Problem}
    (h : made.toOption.map isProper = some true) :
    ∃ p, made = .ok p ∧ p.Proper := by
  cases made with
  | error error => cases h
  | ok p => exact ⟨p, rfl, proper_of_isProper (Option.some.inj h)⟩

/-! ## Making a proper problem -/

/-- What `make?` makes of proper clauses, actions and goals is proper. -/
theorem proper_of_make? {name : Json} {statements : List Statement} {entries : List ActionEntry}
    {goal : GoalStatement} (h : make? name statements entries goal = .ok p)
    (hclauses : ∀ statement ∈ statements, ∀ c, statement.clause? = .ok c → c.isProper)
    (hactions : ∀ entry ∈ entries, ∀ a, entry.action? = .ok a → a.isProper)
    (hgoals : ∀ goals, goal.goal? = .ok (.conjunction goals) → ∀ g ∈ goals, g.isProper) :
    p.Proper := by
  obtain ⟨clauses, hread, h⟩ := bind_eq_ok.mp h
  obtain ⟨kb, hkb, h⟩ := bind_eq_ok.mp h
  obtain ⟨_, -, h⟩ := bind_eq_ok.mp h
  obtain ⟨actions, hnamed, h⟩ := bind_eq_ok.mp h
  obtain ⟨checked, hgoal, h⟩ := bind_eq_ok.mp h
  obtain rfl := Except.ok.inj h
  refine ⟨(KnowledgeBase.Reached.empty.foldlM_tell ?_ hkb).proper, ?_,
    fun goals heq => hgoals goals (heq ▸ hgoal)⟩
  · intro c hc
    obtain ⟨statement, hstatement, hclause⟩ := exists_of_mem_right (mapM_eq_ok.mp hread) hc
    exact hclauses statement hstatement c hclause
  · intro a ha
    obtain ⟨entry, hentry, haction⟩ := exists_of_mem_right (mapM_eq_ok.mp hnamed) ha
    obtain ⟨b, hb, hindexable⟩ := bind_eq_ok.mp haction
    split at hindexable
    · obtain rfl := Except.ok.inj hindexable
      exact hactions entry hentry _ hb
    · cases hindexable

/-! ## Background knowledge -/

theorem Proper.initialState (hp : p.Proper) : p.initialState.Proper := by
  rw [p.initialState_eq]
  exact State.proper_ofList hp.kb.base.closed

theorem Proper.exists_knowledge (hp : p.Proper) : ∃ entailed, p.kb.closure = .ok entailed ∧
    p.knowledge.Proper ∧ p.knowledge.closure = .ok entailed := by
  obtain ⟨entailed, hentailed, -⟩ := hp.kb.exists_closure
  have hknowledge : p.knowledge = { p.kb with cached := some entailed } := by
    rw [knowledge, p.entailed_eq, hentailed]
  rw [hknowledge]
  exact ⟨entailed, hentailed, hp.kb.fill (hp.kb.closure_eq.symm.trans hentailed), rfl⟩

/-! ## Successors -/

/-- A ground action and the schema and the substitution that it comes from in a state. -/
def GroundedAt (p : Problem) (s : State) (a : Action) : Prop :=
  ∃ schema ∈ p.actions, ∃ entailed σ, p.kb.closure = .ok entailed ∧
    schema.IsGrounding (p.order.listing s) entailed σ a

theorem Proper.groundedAt (hp : p.Proper) {s : State} (hs : s.Proper) {schema a : Action}
    (hschema : schema ∈ p.actions) {grounded : List Action}
    (h : schema.groundings (p.order.listing s) p.knowledge = .ok grounded) (ha : a ∈ grounded) :
    p.GroundedAt s a := by
  obtain ⟨entailed, hentailed, hknowledge, hclosure⟩ := hp.exists_knowledge
  obtain ⟨σ, hσ⟩ := Action.exists_of_mem_groundings (hp.actions schema hschema)
    (fun f hf => hs.closed f (Enumeration.mem_listing.mp hf)) hknowledge hclosure h ha
  exact ⟨schema, hschema, entailed, σ, hentailed, hσ⟩

theorem GroundedAt.closed_adds {s : State} {a : Action} (h : p.GroundedAt s a) (hp : p.Proper) :
    ∀ f ∈ a.adds, f.Closed := by
  obtain ⟨schema, hschema, _, σ, -, hσ⟩ := h
  exact hσ.closed_adds (hp.actions schema hschema)

theorem exists_parts {s : State} (hs : s.Proper) {listed : List Action}
    (h : p.applicableActions s = .ok listed) : ∃ parts, listed = parts.flatten ∧
      List.Forall₂ (fun schema part => ∃ grounded,
      schema.groundings (p.order.listing s) p.knowledge = .ok grounded ∧
        part = grounded.filter (·.enabled s)) p.actions parts := by
  rw [applicableActions, hs.factsByPredicate_eq, ok_bind] at h
  obtain ⟨parts, hparts, h⟩ := bind_eq_ok.mp h
  refine ⟨parts, (Except.ok.inj h).symm, (mapM_eq_ok.mp hparts).imp ?_⟩
  intro schema part hpart
  obtain ⟨grounded, hgrounded, hfilter⟩ := bind_eq_ok.mp hpart
  exact ⟨grounded, hgrounded, (Except.ok.inj hfilter).symm⟩

theorem exists_of_mem_successors {s : State} (hs : s.Proper) {l : List (Action × State)}
    (hl : p.successors s = .ok l) {a : Action} {u : State} (hmem : (a, u) ∈ l) :
    ∃ schema ∈ p.actions, ∃ grounded,
    schema.groundings (p.order.listing s) p.knowledge = .ok grounded ∧
      a ∈ grounded ∧ a.enabled s ∧ u = a.result s := by
  obtain ⟨applicable, happlicable, hl⟩ := bind_eq_ok.mp hl
  obtain rfl := Except.ok.inj hl
  obtain ⟨b, hb, heq⟩ := List.mem_map.mp hmem
  obtain ⟨rfl, rfl⟩ := Prod.mk.inj heq
  obtain ⟨parts, rfl, hparts⟩ := exists_parts hs happlicable
  obtain ⟨part, hpart, hb⟩ := List.mem_flatten.mp hb
  obtain ⟨schema, hschema, grounded, hgrounded, rfl⟩ := exists_of_mem_right hparts hpart
  obtain ⟨hmem, henabled⟩ := List.mem_filter.mp hb
  exact ⟨schema, hschema, grounded, hgrounded, hmem, henabled, rfl⟩

theorem Proper.groundedAt_of_mem_successors (hp : p.Proper) {s : State} (hs : s.Proper)
    {l : List (Action × State)} (hl : p.successors s = .ok l) {a : Action} {u : State}
    (hmem : (a, u) ∈ l) : p.GroundedAt s a := by
  obtain ⟨schema, hschema, grounded, hgrounded, ha, -, -⟩ := exists_of_mem_successors hs hl hmem
  exact hp.groundedAt hs hschema hgrounded ha

theorem Proper.successor (hp : p.Proper) {s : State} (hs : s.Proper) {l : List (Action × State)}
    (hl : p.successors s = .ok l) {a : Action} {u : State} (hmem : (a, u) ∈ l) : u.Proper := by
  have hadds := (hp.groundedAt_of_mem_successors hs hl hmem).closed_adds hp
  obtain ⟨-, -, -, -, -, -, rfl⟩ := exists_of_mem_successors hs hl hmem
  exact (hs.removeAll a.deletes).insertAll hadds

theorem Proper.isProper_of_mem_successors (hp : p.Proper) {s : State} (hs : s.Proper)
    {l : List (Action × State)} (hl : p.successors s = .ok l) {a : Action} {u : State}
    (hmem : (a, u) ∈ l) : a.isProper := by
  obtain ⟨schema, hschema, _, σ, -, hσ⟩ := hp.groundedAt_of_mem_successors hs hl hmem
  exact hσ.instance_of.isProper (hp.actions schema hschema) hσ.closed.isProper_value

theorem Proper.isPrintable_of_mem_successors (hp : p.Proper) {s : State} (hs : s.Proper)
    {l : List (Action × State)} (hl : p.successors s = .ok l) {a : Action} {u : State}
    (hmem : (a, u) ∈ l) : a.isPrintable :=
  Action.isPrintable_of_isProper (hp.isProper_of_mem_successors hs hl hmem)

theorem Proper.isProper_of_mem_below (hp : p.Proper) {s : State} (hs : s.Proper) {cut : Prop}
    [Decidable cut] {l : List (Action × State)}
    (hl : (if cut then .ok [] else p.successors s) = .ok l) :
    ∀ successor ∈ l, successor.1.isProper ∧ successor.2.Proper := by
  intro successor hmem
  split at hl
  · obtain rfl := Except.ok.inj hl
    exact absurd hmem List.not_mem_nil
  · exact ⟨hp.isProper_of_mem_successors hs hl hmem, hp.successor hs hl hmem⟩

/-! ## Execution -/

/-- The static conditions of an action without variables hold when all of them are entailed. -/
theorem Proper.exists_staticHolds (hp : p.Proper) {entailed : List Atom}
    (hentailed : p.kb.closure = .ok entailed) {a : Action} (ha : ∀ c ∈ a.static, c.Closed) :
    ∃ holds, p.staticHolds a = .ok holds ∧ (holds ↔ a.static ⊆ entailed) := by
  obtain ⟨facts, hfacts, hknowledge, hclosure⟩ := hp.exists_knowledge
  obtain rfl := Except.ok.inj (hentailed.symm.trans hfacts)
  unfold Problem.staticHolds
  split
  · rename_i hempty
    exact ⟨true, rfl, by simp [List.isEmpty_iff.mp hempty]⟩
  · obtain ⟨answer, next, hask, hiff⟩ := hknowledge.ask_spec hclosure fun c hc => (ha c hc).1
    rw [hask]
    refine ⟨answer.isSome, rfl, hiff.trans ⟨?_, ?_⟩⟩
    · rintro ⟨h, hmem⟩ c hc
      rw [← (ha c hc).bind_eq (f := h)]
      exact hmem c hc
    · intro hsub
      exact ⟨.var, fun c hc => by rw [Atom.bind_eq_self]; exact hsub hc⟩

/-- A ground action can be executed when its static conditions are entailed and it is enabled. -/
theorem Proper.isExecutable_iff (hp : p.Proper) {entailed : List Atom}
    (hentailed : p.kb.closure = .ok entailed) {a : Action} (hground : a.isGround)
    (ha : ∀ c ∈ a.static, c.Closed) (s : State) :
    p.isExecutable a s = .ok true ↔ a.static ⊆ entailed ∧ a.enabled s := by
  obtain ⟨holds, hholds, hiff⟩ := hp.exists_staticHolds hentailed ha
  have happlicable : a.isApplicable s = .ok (a.enabled s) := by
    rw [Action.isApplicable, Action.requireGround, if_pos hground]
    rfl
  rw [isExecutable, hholds, ok_bind, ← hiff, happlicable]
  cases holds with
  | true => simp
  | false => simp [pure, Except.pure]

/-- What a grounding needs in order to be executed is that it is enabled. -/
theorem Proper.isExecutable_iff_of_groundedAt (hp : p.Proper) {s : State} {a : Action}
    (ha : p.GroundedAt s a) : p.isExecutable a s = .ok true ↔ a.enabled s := by
  obtain ⟨schema, -, entailed, σ, hentailed, hσ⟩ := ha
  have hclosed : ∀ c ∈ a.static, c.Closed := fun c hc =>
    hp.kb.closed_closure hentailed c (hσ.static_subset hc)
  rw [hp.isExecutable_iff hentailed hσ.isGround hclosed, and_iff_right hσ.static_subset]

/-- An action may be taken in a state and leads to another one: it is a ground instance of a schema,
it can be executed, which is to say that its static conditions are entailed, its required facts are
there and its forbidden facts are not, and applying it gives the other state. -/
structure Executes (p : Problem) (s : State) (a : Action) (t : State) : Prop where
  ground : ∃ schema ∈ p.actions, ∃ σ, schema.ground σ = .ok a
  isExecutable : p.isExecutable a s = .ok true
  entailed : ∃ facts, p.kb.closure = .ok facts ∧ ∀ f ∈ a.static, f ∈ facts
  required : ∀ f ∈ a.requires, f ∈ s.facts
  forbidden : ∀ f ∈ a.forbids, f ∉ s.facts
  applied : a.apply s = .ok t

theorem executes_of_enabled {s : State} (hs : s.Proper) {a : Action}
    (hschema : ∃ schema ∈ p.actions, ∃ σ, schema.ground σ = .ok a) (hground : a.isGround)
    (hexecutable : p.isExecutable a s = .ok true)
    (hentailed : ∃ facts, p.kb.closure = .ok facts ∧ ∀ f ∈ a.static, f ∈ facts)
    (henabled : a.enabled s) : p.Executes s a (a.result s) := by
  have hrequire : a.requireGround = .ok () := if_pos hground
  obtain ⟨hrequires, hforbids⟩ := Bool.and_eq_true_iff.mp henabled
  refine ⟨hschema, hexecutable, hentailed, ?_, ?_, ?_⟩
  · intro f hf
    exact hs.holdsFact_iff.mp (List.all_eq_true.mp hrequires f hf)
  · intro f hf hmem
    have habsent := List.all_eq_true.mp hforbids f hf
    rw [hs.holdsFact_iff.mpr hmem] at habsent
    cases habsent
  · rw [Action.apply, hrequire]
    rfl

/-- **Every successor is reached by an action that can be executed.** -/
theorem Proper.executes (hp : p.Proper) {s : State} (hs : s.Proper) {l : List (Action × State)}
    (hl : p.successors s = .ok l) {a : Action} {u : State} (hmem : (a, u) ∈ l) :
    p.Executes s a u := by
  have hat := hp.groundedAt_of_mem_successors hs hl hmem
  obtain ⟨-, -, -, -, -, henabled, rfl⟩ := exists_of_mem_successors hs hl hmem
  have hexecutable := (hp.isExecutable_iff_of_groundedAt hat).mpr henabled
  obtain ⟨schema, hschema, entailed, σ, hentailed, hσ⟩ := hat
  exact executes_of_enabled hs ⟨schema, hschema, σ, hσ.ground⟩ hσ.isGround hexecutable
    ⟨entailed, hentailed, hσ.static_subset⟩ henabled

/-! ## Paths -/

/-- Actions lead from one state to another when each of them is that of a successor. -/
inductive Leads (p : Problem) : State → List Action → State → Prop
  | nil (s : State) : Leads p s [] s
  | cons {s u t : State} {a : Action} {as : List Action} {l : List (Action × State)}
      (hl : p.successors s = .ok l) (hmem : (a, u) ∈ l) (h : Leads p u as t) : Leads p s (a :: as) t

theorem Leads.snoc {s t u : State} {as : List Action} {a : Action} {l : List (Action × State)}
    (h : p.Leads s as t) (hl : p.successors t = .ok l) (hmem : (a, u) ∈ l) :
    p.Leads s (as ++ [a]) u := by
  induction h with
  | nil s => exact .cons hl hmem (.nil u)
  | cons hl' hmem' _ ih => exact .cons hl' hmem' (ih hl)

theorem Leads.proper (hp : p.Proper) {s t : State} {as : List Action} (h : p.Leads s as t)
    (hs : s.Proper) : t.Proper := by
  induction h with
  | nil => exact hs
  | cons hl hmem _ ih => exact ih (hp.successor hs hl hmem)

theorem Leads.isPrintable (hp : p.Proper) {s t : State} {as : List Action} (h : p.Leads s as t)
    (hs : s.Proper) : ∀ a ∈ as, a.isPrintable := by
  induction h with
  | nil => exact fun a ha => absurd ha List.not_mem_nil
  | cons hl hmem _ ih =>
      exact List.forall_mem_cons.mpr
        ⟨hp.isPrintable_of_mem_successors hs hl hmem, ih (hp.successor hs hl hmem)⟩

/-- No path from a state reaches the goal. -/
def Hopeless (p : Problem) (s : State) : Prop :=
  ∀ as t, p.Leads s as t → p.reaches t ≠ .ok true

theorem Hopeless.reaches_ne {s : State} (h : p.Hopeless s) : p.reaches s ≠ .ok true :=
  h [] s (.nil s)

end HornPlan.Problem
