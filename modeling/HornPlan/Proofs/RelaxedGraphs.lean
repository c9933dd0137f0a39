import HornPlan.Proofs.Problems
import HornPlan.RelaxedGraph

/-!
# Relaxed graphs rule out only what cannot be reached

The facts that layers add are instances of the facts that actions add, over the constants that the
problem and the first layer mention.  There are fewer of them than `layerBound`, and every layer
adds one, so that a graph is never cut short (`Grown.expandUntil`).

In a graph that has leveled off, the top layer has the facts of every state that can be reached from
the first layer (`Grown.facts_subset_of_leads`).  A goal that the top layer does not attain is
therefore attained nowhere, and a state without an estimate is hopeless
(`hopeless_of_estimate_eq_none`).
-/

namespace HornPlan

/-! ## Constants -/

theorem Term.mem_constantsList {ts : List Term} {c : Constant} :
    c ∈ Term.constantsList ts ↔ ∃ t ∈ ts, c ∈ t.constants := by
  induction ts with
  | nil => simp [Term.constantsList]
  | cons t ts ih => simp [Term.constantsList, ih]

theorem Term.mem_constants_bind {f : Variable → Term} {t : Term} {c : Constant} :
    c ∈ (t.bind f).constants ↔ c ∈ t.constants ∨ ∃ x ∈ t.vars, c ∈ (f x).constants := by
  induction t using Term.inductionOnArgs with
  | var x => simp [Term.constants, Term.vars]
  | const d => simp [Term.constants, Term.vars]
  | foreign a => simp [Term.bind, Term.constants, Term.vars]
  | app s args ih =>
      rw [Term.bind_app, Term.constants, Term.constants, Term.mem_constantsList,
        Term.mem_constantsList]
      constructor
      · rintro ⟨_, hu, hc⟩
        obtain ⟨u, hmem, rfl⟩ := List.mem_map.mp hu
        rcases (ih u hmem).mp hc with hc | ⟨x, hx, hc⟩
        · exact Or.inl ⟨u, hmem, hc⟩
        · exact Or.inr ⟨x, Term.mem_vars_app.mpr ⟨u, hmem, hx⟩, hc⟩
      · rintro (⟨u, hu, hc⟩ | ⟨x, hx, hc⟩)
        · exact ⟨_, List.mem_map_of_mem hu, (ih u hu).mpr (Or.inl hc)⟩
        · obtain ⟨u, hu, hxu⟩ := Term.mem_vars_app.mp hx
          exact ⟨_, List.mem_map_of_mem hu, (ih u hu).mpr (Or.inr ⟨x, hxu, hc⟩)⟩

theorem Atom.mem_constants_bind {f : Variable → Term} {a : Atom} {c : Constant} :
    c ∈ (a.bind f).constants ↔ c ∈ a.constants ∨ ∃ x ∈ a.vars, c ∈ (f x).constants := by
  have hterm := Term.mem_constants_bind (f := f) (t := a.toTerm) (c := c)
  rwa [← Atom.toTerm_bind] at hterm

namespace RelaxedGraph

variable {p : Problem} {s : State}

/-- All constants of an atom are among the objects of a problem. -/
def Mentioned (p : Problem) (s : State) (a : Atom) : Prop :=
  ∀ c ∈ a.constants, c ∈ objects p s

theorem mem_objects {c : Constant} : c ∈ objects p s ↔
    (∃ f ∈ s.facts, c ∈ f.constants) ∨
    (∃ r ∈ p.kb.clauses, ∃ a ∈ r.consequent :: r.antecedents, c ∈ a.constants) ∨
      ∃ schema ∈ p.actions, ∃ a ∈ schema.signature :: schema.atoms, c ∈ a.constants := by
  simp only [objects, List.mem_eraseDups, List.flatMap_append, List.flatMap_assoc, List.mem_append,
    List.mem_flatMap, or_assoc]

theorem mentioned_of_mem_atoms {schema : Action} (hschema : schema ∈ p.actions) {a : Atom}
    (ha : a ∈ schema.atoms) : Mentioned p s a :=
  fun _ hc => mem_objects.mpr (Or.inr (Or.inr ⟨schema, hschema, a, List.mem_cons_of_mem _ ha, hc⟩))

theorem mentioned_bind {h : Variable → Term} {as : List Atom}
    (hbody : ∀ a ∈ as, Mentioned p s (a.bind h)) {b : Atom} (hb : Mentioned p s b)
    (hvars : ∀ x ∈ b.vars, ∃ a ∈ as, x ∈ a.vars) : Mentioned p s (b.bind h) := by
  intro c hc
  rcases Atom.mem_constants_bind.mp hc with hc | ⟨x, hx, hc⟩
  · exact hb c hc
  · obtain ⟨a, ha, hxa⟩ := hvars x hx
    exact hbody a ha c (Atom.mem_constants_bind.mpr (Or.inr ⟨x, hxa, hc⟩))

/-- Entailed facts mention nothing but objects. -/
theorem mentioned_of_entailed (hp : p.Proper) {entailed : List Atom}
    (hentailed : p.kb.closure = .ok entailed) {f : Atom} (hf : f ∈ entailed) : Mentioned p s f := by
  have hclauses : ∀ r ∈ p.kb.clauses, ∀ a ∈ r.consequent :: r.antecedents, Mentioned p s a :=
    fun r hr a ha c hc => mem_objects.mpr (Or.inr (Or.inl ⟨r, hr, a, ha, hc⟩))
  have hclosed : ClosedUnder p.kb.rules {f | Mentioned p s f} := by
    intro r hr h _ hbody
    have hmem := (KnowledgeBase.mem_rules.mp hr).1
    refine mentioned_bind hbody (hclauses r hmem _ (List.mem_cons_self ..)) ?_
    intro x hx
    exact Clause.mem_bodyVariables.mp ((p.kb.safe r hmem).mem_bodyVariables hx)
  refine (hp.kb.isClosure hentailed).subset hclosed ?_ f hf
  intro g hg
  obtain ⟨r, hr, -, rfl⟩ := KnowledgeBase.mem_facts.mp hg
  exact hclauses r hr _ (List.mem_cons_self ..)

/-! ## The facts that can be added -/

/-- Gives each variable among parameters the constant at its place. -/
def assignment : List SimpleTerm → List Constant → Variable → Term
  | .var y :: ps, c :: cs, x => if x = y then .const c else assignment ps cs x
  | _ :: ps, _ :: cs, x => assignment ps cs x
  | _, _, x => .var x

/-- The instances of the facts that the actions add, over the objects of a problem. -/
def addable (p : Problem) (s : State) : List Atom :=
  p.actions.flatMap fun schema => (tuples (objects p s) schema.parameters.length).flatMap fun cs =>
    schema.adds.map (·.bind (assignment schema.parameters cs))

theorem length_addable (p : Problem) (s : State) : (addable p s).length + 1 = layerBound p s := by
  have hsum : ∀ (objs : List Constant) (schemas : List Action),
      (schemas.flatMap fun schema => (tuples objs schema.parameters.length).flatMap fun cs =>
        schema.adds.map (·.bind (assignment schema.parameters cs))).length + 1
        = schemas.foldr (fun a bound =>
            Nat.pow objs.length a.parameters.length * a.adds.length + bound) 1 := by
    intro objs schemas
    induction schemas with
    | nil => rfl
    | cons schema schemas ih =>
        rw [List.flatMap_cons, List.length_append, List.foldr_cons, ← ih, List.length_flatMap]
        simp only [List.length_map, List.map_const', List.sum_replicate_nat, length_tuples]
        exact Nat.add_assoc ..
  exact hsum (objects p s) p.actions

theorem exists_assignment {objs : List Constant} {v : Variable → Term} {ps : List SimpleTerm}
    (hproper : ∀ q ∈ ps, q.toTerm.isProper)
    (hconstants : ∀ q ∈ ps, ∀ c ∈ q.toTerm.constants, c ∈ objs)
    (hvars : ∀ q ∈ ps, ∀ x ∈ q.toTerm.vars, ∃ c ∈ objs, v x = .const c) :
    ∃ cs ∈ tuples objs ps.length, ∀ q ∈ ps, ∀ x ∈ q.toTerm.vars, assignment ps cs x = v x := by
  -- induction on the parameters; for a constant among them no value is asked for, and it is an
  -- object
  induction ps with
  | nil => exact ⟨[], List.mem_singleton_self [], fun q hq => absurd hq List.not_mem_nil⟩
  | cons q ps ih =>
      obtain ⟨hq, hps⟩ := List.forall_mem_cons.mp hproper
      obtain ⟨hqc, hpsc⟩ := List.forall_mem_cons.mp hconstants
      obtain ⟨hqv, hpsv⟩ := List.forall_mem_cons.mp hvars
      obtain ⟨cs, hcs, hvalue⟩ := ih hps hpsc hpsv
      have hcons : ∀ c ∈ objs, c :: cs ∈ tuples objs (q :: ps).length := fun c hc =>
        List.mem_flatMap.mpr ⟨c, hc, List.mem_map_of_mem hcs⟩
      cases q with
      | listed first rest hconstant => cases hq
      | const c =>
          refine ⟨c :: cs, hcons c (hqc c (List.mem_singleton_self c)), ?_⟩
          exact List.forall_mem_cons.mpr ⟨fun x hx => absurd hx List.not_mem_nil, hvalue⟩
      | var y =>
          obtain ⟨c, hc, hy⟩ := hqv y (List.mem_singleton_self y)
          refine ⟨c :: cs, hcons c hc, List.forall_mem_cons.mpr ⟨?_, ?_⟩⟩
          · intro x hx
            obtain rfl := List.mem_singleton.mp hx
            exact (if_pos rfl).trans hy.symm
          · intro r hr x hx
            by_cases hxy : x = y
            · subst hxy
              exact (if_pos rfl).trans hy.symm
            · exact (if_neg hxy).trans (hvalue r hr x hx)

/-- The facts that a grounding adds can be added, where all facts at hand are mentioned. -/
theorem mem_addable (hp : p.Proper) {facts entailed : List Atom}
    (hfacts : ∀ f ∈ facts, Mentioned p s f) (hentailed : p.kb.closure = .ok entailed)
    {schema g : Action} (hschema : schema ∈ p.actions) {σ : Substitution}
    (hg : schema.IsGrounding facts entailed σ g) {f : Atom} (hf : f ∈ g.adds) :
    f ∈ addable p s ∧ Mentioned p s f := by
  obtain ⟨-, hparameters, -⟩ := Schema.isProper_iff.mp (hp.actions schema hschema)
  rw [hg.instance_of.adds] at hf
  obtain ⟨b, hb, rfl⟩ := List.mem_map.mp (mem_of_mem_eraseDups hf)
  have hbatoms : b ∈ schema.atoms := by simp [Schema.atoms, hb]
  -- every variable has got its value in a fact or in an entailed fact
  have hdetermined : ∀ c ∈ schema.requires ++ schema.static, Mentioned p s (c.bind σ.value) := by
    intro c hc
    rcases List.mem_append.mp hc with hc | hc
    · exact hfacts _ (hg.required c hc)
    · exact mentioned_of_entailed hp hentailed (hg.entailed c hc)
  have hvalues : ∀ x ∈ schema.vars, ∃ c ∈ objects p s, σ.value x = .const c := by
    intro x hx
    obtain ⟨c, hc⟩ := hg.constants x hx
    obtain ⟨d, hd, hxd⟩ := hg.determined x hx
    refine ⟨c, hdetermined d hd c (Atom.mem_constants_bind.mpr (Or.inr ⟨x, hxd, ?_⟩)), hc⟩
    rw [hc]
    exact List.mem_singleton_self c
  refine ⟨?_, mentioned_bind hdetermined (mentioned_of_mem_atoms hschema hbatoms) fun x hx =>
    hg.determined x (schema.mem_vars hbatoms hx)⟩
  have hconstants : ∀ q ∈ schema.parameters, ∀ c ∈ q.toTerm.constants, c ∈ objects p s :=
    fun q hq c hc => mem_objects.mpr (Or.inr (Or.inr ⟨schema, hschema, schema.signature,
      List.mem_cons_self .., Term.mem_constantsList.mpr ⟨q.toTerm, List.mem_map_of_mem hq, hc⟩⟩))
  obtain ⟨cs, hcs, hvalue⟩ := exists_assignment hparameters hconstants fun q hq x hx =>
    hvalues x (List.mem_flatMap.mpr ⟨q, hq, hx⟩)
  have hsame : b.bind σ.value = b.bind (assignment schema.parameters cs) :=
    Atom.bind_congr fun x hx => by
    obtain ⟨q, hq, hxq⟩ := List.mem_flatMap.mp (schema.mem_vars hbatoms hx)
    exact (hvalue q hq x hxq).symm
  rw [hsame]
  exact List.mem_flatMap.mpr
    ⟨schema, hschema, List.mem_flatMap.mpr ⟨cs, hcs, List.mem_map_of_mem hb⟩⟩

/-! ## Expansion -/

/-- What a layer adds: the facts that its groundings add and that it does not have. -/
theorem additions_spec {layer : State} (hlayer : layer.Proper) {added : List Atom}
    (h : additions p layer = .ok added) :
    (∀ f ∈ added, f ∉ layer.facts ∧ ∃ schema ∈ p.actions, ∃ grounded,
      schema.groundings (p.order.listing layer) p.knowledge = .ok grounded ∧
      ∃ g ∈ grounded, f ∈ g.adds) ∧
    ∀ schema ∈ p.actions, ∃ grounded,
    schema.groundings (p.order.listing layer) p.knowledge = .ok grounded ∧
      ∀ g ∈ grounded, ∀ f ∈ g.adds, f ∈ layer.facts ∨ f ∈ added := by
  rw [additions, hlayer.factsByPredicate_eq, ok_bind] at h
  obtain ⟨instances, hinstances, h⟩ := bind_eq_ok.mp h
  obtain rfl := Except.ok.inj h
  have hpairs := mapM_eq_ok.mp hinstances
  refine ⟨?_, ?_⟩
  · intro f hf
    obtain ⟨hf, hnew⟩ := List.mem_filter.mp hf
    obtain ⟨g, hg, hfg⟩ := List.mem_flatMap.mp hf
    obtain ⟨grounded, hgrounded, hg⟩ := List.mem_flatten.mp hg
    obtain ⟨schema, hschema, hgroundings⟩ := exists_of_mem_right hpairs hgrounded
    refine ⟨?_, schema, hschema, grounded, hgroundings, g, hg, hfg⟩
    intro hmem
    rw [hlayer.holdsFact_iff.mpr hmem] at hnew
    cases hnew
  · intro schema hschema
    obtain ⟨grounded, hgrounded, hgroundings⟩ := exists_of_mem_left hpairs hschema
    refine ⟨grounded, hgroundings, ?_⟩
    intro g hg f hf
    -- an added fact is there already, or it is among those that are new
    by_cases hmem : f ∈ layer.facts
    · exact Or.inl hmem
    · refine Or.inr (List.mem_filter.mpr ⟨List.mem_flatMap.mpr
        ⟨g, List.mem_flatten.mpr ⟨grounded, hgrounded, hg⟩, hf⟩, ?_⟩)
      rw [Bool.not_eq_true', Bool.eq_false_iff]
      intro hholds
      exact hmem (hlayer.holdsFact_iff.mp hholds)

theorem closed_of_mem_additions (hp : p.Proper) {layer : State} (hlayer : layer.Proper)
    {added : List Atom} (h : additions p layer = .ok added) {f : Atom} (hf : f ∈ added) :
    f.Closed := by
  obtain ⟨-, schema, hschema, grounded, hgrounded, a, ha, hfa⟩ := (additions_spec hlayer h).1 f hf
  exact (hp.groundedAt hlayer hschema hgrounded ha).closed_adds hp f hfa

/-- The invariant of a graph above a state: the top layer is proper, has the facts of the state and
mentions nothing but objects, every layer has added a fact, and a graph that has leveled off can add
no other. -/
structure Grown (p : Problem) (s : State) (g : RelaxedGraph) : Prop where
  first : g.first = s
  proper : g.top.Proper
  facts_subset : s.facts ⊆ g.top.facts
  mentioned : ∀ f ∈ g.top.facts, Mentioned p s f
  counted : ∃ added : List Atom, added.Nodup ∧ added ⊆ addable p s ∧ added ⊆ g.top.facts ∧
    g.later.length = added.length
  leveled : g.leveledOff = true → additions p g.top = .ok []

theorem grown_start (hs : s.Proper) : Grown p s (start s) :=
  ⟨rfl, hs, List.Subset.refl _, fun f hf _ hc => mem_objects.mpr (Or.inl ⟨f, hf, hc⟩),
    ⟨[], List.nodup_nil, List.nil_subset _, List.nil_subset _, rfl⟩, fun h => nomatch h⟩

variable {g : RelaxedGraph}

theorem top_append (g : RelaxedGraph) (layer : State) :
    ({ g with later := g.later ++ [layer] } : RelaxedGraph).top = layer := by
  simp [top]

theorem Grown.length_lt (h : Grown p s g) : g.later.length < layerBound p s := by
  obtain ⟨added, hnodup, hsub, -, hlength⟩ := h.counted
  have hle := length_le_of_nodup_of_subset hnodup hsub
  rw [← length_addable]
  omega

/-- What an added fact is: a new one that can be added, with constants that are objects. -/
theorem Grown.of_mem_additions (hp : p.Proper) (h : Grown p s g) {added : List Atom}
    (hadded : additions p g.top = .ok added) {f : Atom} (hf : f ∈ added) :
    f ∉ g.top.facts ∧ f ∈ addable p s ∧ Mentioned p s f := by
  obtain ⟨hnew, schema, hschema, grounded, hgrounded, a, ha, hfa⟩ :=
    (additions_spec h.proper hadded).1 f hf
  obtain ⟨schema, hschema, entailed, σ, hentailed, hσ⟩ :=
    hp.groundedAt h.proper hschema hgrounded ha
  obtain ⟨haddable, hmentioned⟩ := mem_addable hp
    (fun f hf => h.mentioned f (Enumeration.mem_listing.mp hf)) hentailed hschema hσ hfa
  exact ⟨hnew, haddable, hmentioned⟩

/-- What an expansion does: nothing to a graph that has leveled off, and else it adds a layer unless
there is no fact to add. -/
theorem expand_cases {b : Bool} {next : RelaxedGraph} (hexpand : expand p g = (.ok b, next)) :
    (g.leveledOff = true ∧ b = false ∧ next = g) ∨
    (additions p g.top = .ok [] ∧ b = false ∧ next = { g with leveledOff := true }) ∨
      ∃ added, g.leveledOff ≠ true ∧ added ≠ [] ∧ additions p g.top = .ok added ∧ b = true ∧
        next = { g with later := g.later ++ [g.top.insertAll added] } := by
  unfold RelaxedGraph.expand at hexpand
  split at hexpand
  · rename_i hleveled
    obtain ⟨hb, rfl⟩ := Prod.mk.inj hexpand
    exact Or.inl ⟨hleveled, (Except.ok.inj hb).symm, rfl⟩
  · split at hexpand
    · cases (Prod.mk.inj hexpand).1
    · rename_i hnone
      obtain ⟨hb, rfl⟩ := Prod.mk.inj hexpand
      exact Or.inr (Or.inl ⟨hnone, (Except.ok.inj hb).symm, rfl⟩)
    · rename_i hleveled _ added hne hadded
      obtain ⟨hb, rfl⟩ := Prod.mk.inj hexpand
      exact Or.inr (Or.inr ⟨added, hleveled, hne, hadded, (Except.ok.inj hb).symm, rfl⟩)

/-- A layer of added facts keeps the invariant. -/
theorem Grown.append (hp : p.Proper) (h : Grown p s g) (hleveled : g.leveledOff ≠ true)
    {added : List Atom} (hadded : additions p g.top = .ok added) (hne : added ≠ []) :
    Grown p s { g with later := g.later ++ [g.top.insertAll added] } := by
  have hspec : ∀ f ∈ added, f ∉ g.top.facts ∧ f ∈ addable p s ∧ Mentioned p s f :=
    fun f hf => h.of_mem_additions hp hadded hf
  have hclosed : ∀ f ∈ added, f.Closed := fun f hf => closed_of_mem_additions hp h.proper hadded hf
  have hmem : ∀ f, f ∈ (g.top.insertAll added).facts ↔ f ∈ added ∨ f ∈ g.top.facts := fun f =>
    State.mem_insertAll fun f hf => (hclosed f hf).1
  refine ⟨h.first, ?_, ?_, ?_, ?_, fun hlevel => absurd hlevel hleveled⟩ <;> rw [top_append]
  · exact h.proper.insertAll hclosed
  · intro f hf
    exact (hmem f).mpr (Or.inr (h.facts_subset hf))
  · intro f hf
    exact ((hmem f).mp hf).elim (fun hf => (hspec f hf).2.2) (h.mentioned f)
  · -- one of the new facts counts for the new layer
    obtain ⟨counted, hnodup, hsub, htop, hlength⟩ := h.counted
    obtain ⟨f, hf⟩ := List.exists_mem_of_ne_nil added hne
    have hfresh : f ∉ counted := fun hmem => (hspec f hf).1 (htop hmem)
    refine ⟨f :: counted, List.nodup_cons.mpr ⟨hfresh, hnodup⟩, ?_, ?_, ?_⟩
    · exact List.cons_subset.mpr ⟨(hspec f hf).2.1, hsub⟩
    · exact List.cons_subset.mpr
        ⟨(hmem f).mpr (Or.inl hf), fun k hk => (hmem k).mpr (Or.inr (htop hk))⟩
    · simp [hlength]

/-- **Expanding keeps the invariant**, and adds a layer unless the graph has leveled off. -/
theorem Grown.expand (hp : p.Proper) (h : Grown p s g) {b : Bool} {next : RelaxedGraph}
    (hexpand : expand p g = (.ok b, next)) : Grown p s next ∧
      (b = true → next.later.length = g.later.length + 1) ∧
      (b = false → next.leveledOff = true ∧ next.layers = g.layers) := by
  rcases expand_cases hexpand with
    ⟨hleveled, rfl, rfl⟩ | ⟨hnone, rfl, rfl⟩ | ⟨added, hleveled, hne, hadded, rfl, rfl⟩
  · exact ⟨h, fun hb => (nomatch hb), fun _ => ⟨hleveled, rfl⟩⟩
  · refine ⟨?_, fun hb => (nomatch hb), fun _ => ⟨rfl, rfl⟩⟩
    exact ⟨h.first, h.proper, h.facts_subset, h.mentioned, h.counted, fun _ => hnone⟩
  · exact ⟨h.append hp hleveled hadded hne, fun _ => by simp, fun hb => nomatch hb⟩

/-- **Expansion answers for the whole graph**: where it has found nothing, the graph has leveled
off. -/
theorem Grown.expandUntil (hp : p.Proper) {α : Type}
    {found : RelaxedGraph → Except Error (Option α)}
    (hfound : ∀ g g' : RelaxedGraph, g.layers = g'.layers → found g = found g') {layers : Nat}
    (h : Grown p s g) (hlayers : layerBound p s ≤ layers + g.later.length) {answer : Option α}
    {next : RelaxedGraph} (hexpand : expandUntil p found layers g = (.ok answer, next)) :
    Grown p s next ∧ (answer = none → next.leveledOff = true ∧ found next = .ok none) := by
  -- induction on the layers left, of which there are enough since each new one adds a fact that can
  -- be added
  induction layers generalizing g with
  | zero =>
      have hlt := h.length_lt
      omega
  | succ layers ih =>
      rw [RelaxedGraph.expandUntil] at hexpand
      split at hexpand
      · cases (Prod.mk.inj hexpand).1
      · obtain ⟨hanswer, rfl⟩ := Prod.mk.inj hexpand
        obtain rfl := Except.ok.inj hanswer
        exact ⟨h, fun hnone => nomatch hnone⟩
      · rename_i hnone
        split at hexpand
        · cases (Prod.mk.inj hexpand).1
        · rename_i g' hg'
          obtain ⟨hanswer, rfl⟩ := Prod.mk.inj hexpand
          obtain rfl := Except.ok.inj hanswer
          obtain ⟨hgrown, -, hend⟩ := h.expand hp hg'
          obtain ⟨hleveled, hsame⟩ := hend rfl
          exact ⟨hgrown, fun _ => ⟨hleveled, (hfound _ _ hsame).trans hnone⟩⟩
        · rename_i g' hg'
          obtain ⟨hgrown, hlonger, -⟩ := h.expand hp hg'
          exact ih hgrown (by rw [hlonger rfl]; omega) hexpand

/-! ## What can be reached -/

/-- A layer that has the facts of a state has those of its successors, or adds them. -/
theorem facts_subset_of_additions (hp : p.Proper) {layer : State} (hlayer : layer.Proper)
    {added : List Atom} (hadded : additions p layer = .ok added) {t u : State} {a : Action}
    {l : List (Action × State)} (ht : t.Proper) (hl : p.successors t = .ok l) (hmem : (a, u) ∈ l)
    (hsub : t.facts ⊆ layer.facts) {f : Atom} (hf : f ∈ u.facts) : f ∈ layer.facts ∨ f ∈ added := by
  obtain ⟨schema, hschema, grounded, hgrounded, ha, -, rfl⟩ :=
    Problem.exists_of_mem_successors ht hl hmem
  obtain ⟨_, -, hknowledge, -⟩ := hp.exists_knowledge
  have hadds : ∀ f ∈ a.adds, f.isProper := by
    intro f hf
    exact ((hp.groundedAt ht hschema hgrounded ha).closed_adds hp f hf).1
  rcases (State.mem_insertAll hadds).mp hf with hf | hf
  · -- the layer has a grounding that adds the same facts
    obtain ⟨larger, hlarger, hspec⟩ := (additions_spec hlayer hadded).2 schema hschema
    obtain ⟨a', ha', hsame⟩ := Action.groundings_mono (hp.actions schema hschema)
      (fun f hf => hlayer.closed f (Enumeration.mem_listing.mp hf))
      (fun f hf => Enumeration.mem_listing.mpr (hsub (Enumeration.mem_listing.mp hf)))
      hknowledge hgrounded
      hlarger ha
    exact hspec a' ha' f (hsame ▸ hf)
  · exact Or.inl (hsub ((State.mem_removeAll ht).mp hf).1)

/-- The facts of a successor are in the top layer of a graph that has leveled off, where those of
the state are. -/
theorem Grown.facts_subset_of_successor (hp : p.Proper) (h : Grown p s g)
    (hleveled : g.leveledOff = true) {t u : State} {a : Action} {l : List (Action × State)}
    (ht : t.Proper) (hl : p.successors t = .ok l) (hmem : (a, u) ∈ l)
    (hsub : t.facts ⊆ g.top.facts) : u.facts ⊆ g.top.facts := by
  intro f hf
  have hcases := facts_subset_of_additions hp h.proper (h.leveled hleveled) ht hl hmem hsub hf
  exact hcases.resolve_right List.not_mem_nil

/-- **The top layer of a graph that has leveled off has the facts of all reachable states.** -/
theorem Grown.facts_subset_of_leads (hp : p.Proper) (h : Grown p s g)
    (hleveled : g.leveledOff = true) {t u : State} {as : List Action} (hleads : p.Leads t as u)
    (ht : t.Proper) (hsub : t.facts ⊆ g.top.facts) : u.facts ⊆ g.top.facts := by
  induction hleads with
  | nil => exact hsub
  | cons hl hmem _ ih =>
      exact ih (hp.successor ht hl hmem) (h.facts_subset_of_successor hp hleveled ht hl hmem hsub)

theorem Grown.hopeless (hp : p.Proper) (hs : s.Proper) (h : Grown p s g)
    (hleveled : g.leveledOff = true) {goals : List Atom} (hgoals : p.goal = .conjunction goals)
    {goal : Atom} (hgoal : goal ∈ goals) (hmissed : ¬Attained p.rules g.top.facts goal) :
    p.Hopeless s := by
  intro as t hleads hreaches
  rw [Problem.reaches, hgoals] at hreaches
  have ht := hleads.proper hp hs
  have hrules : ∀ r ∈ p.rules, r.isProper := fun r hr => (hp.kb.base.rules r hr).1
  have hattained := attained_of_holds ht hrules (hp.goals goals hgoals) hreaches goal hgoal
  exact hmissed (hattained.mono (h.facts_subset_of_leads hp hleveled hleads hs h.facts_subset))

/-! ## Levels -/

theorem levelWhere_eq_none {passes : State → Except Error Bool} {index : Nat} {layers : List State}
    (h : levelWhere passes index layers = .ok none) :
    ∀ layer ∈ layers, passes layer = .ok false := by
  induction layers generalizing index with
  | nil => exact fun layer hlayer => absurd hlayer List.not_mem_nil
  | cons layer rest ih =>
      obtain ⟨passed, hpassed, h⟩ := bind_eq_ok.mp h
      cases passed with
      | true => cases h
      | false => exact List.forall_mem_cons.mpr ⟨hpassed, ih h⟩

theorem top_mem_layers (g : RelaxedGraph) : g.top ∈ g.layers := by
  unfold top layers
  cases hlast : g.later.getLast? with
  | none => exact List.mem_cons_self ..
  | some layer => exact List.mem_cons_of_mem _ (List.mem_of_getLast? hlast)

theorem matchesGoal_eq {layer : State} (hlayer : layer.Proper) {goal : Atom} (hgoal : goal.isProper)
    {b : Bool} (h : matchesGoal p goal layer = .ok b) :
    b ↔ ∃ k : Variable → Term, goal.bind k ∈ layer.facts := by
  have hlisted : goal.hasListedVariable = false := Term.hasListedVariable_eq_false hgoal
  have hclosed : ∀ f ∈ p.order.facts layer, f.Closed := fun f hf =>
    hlayer.closed f (Enumeration.mem_facts.mp hf)
  rw [matchesGoal, hlayer.requireListing_eq, ok_bind, hlisted] at h
  obtain rfl := Except.ok.inj h
  rw [firstMatch?_isSome_iff hclosed (by simpa using hgoal)]
  simp [Enumeration.mem_facts]

/-- Asking for the level of a goal keeps the invariant; where there is no level, the graph has
leveled off and does not attain the goal. -/
theorem Grown.goalLevelOf (hp : p.Proper) (h : Grown p s g) {goal : Atom} (hgoal : goal.isProper)
    {level : Option Nat} {next : RelaxedGraph} (hlevel : goalLevelOf p goal g = (.ok level, next)) :
    Grown p s next ∧
    (level = none → next.leveledOff = true ∧ ¬Attained p.rules next.top.facts goal) := by
  unfold RelaxedGraph.goalLevelOf at hlevel
  rw [KnowledgeBase.requireKey_eq_ok hgoal] at hlevel
  simp only at hlevel
  split at hlevel
  · obtain ⟨hsome, rfl⟩ := Prod.mk.inj hlevel
    obtain rfl := Except.ok.inj hsome
    exact ⟨h, fun hnone => nomatch hnone⟩
  · rename_i hrules
    rw [findLevel, h.first] at hlevel
    obtain ⟨hgrown, hend⟩ :=
      h.expandUntil hp (fun g g' hsame => by rw [hsame]) (Nat.le_add_right _ _) hlevel
    refine ⟨hgrown, ?_⟩
    intro hnone
    obtain ⟨hleveled, hfound⟩ := hend hnone
    refine ⟨hleveled, ?_⟩
    -- no rule concludes the goal, and the top layer was looked at last
    rintro (⟨r, hr, hkey⟩ | hmatch)
    · exact hrules (List.any_eq_true.mpr ⟨r, hr, (Atom.key_beq_iff (Or.inr hgoal)).mpr hkey⟩)
    · have hmissed := levelWhere_eq_none hfound next.top (top_mem_layers next)
      exact absurd ((matchesGoal_eq hgrown.proper hgoal hmissed).mpr hmatch) Bool.false_ne_true

theorem Grown.goalLevelFrom (hp : p.Proper) (h : Grown p s g) {goals : List Atom}
    (hgoals : ∀ goal ∈ goals, goal.isProper) {worst : Nat} {next : RelaxedGraph}
    (hlevel : goalLevelFrom p worst goals g = (.ok none, next)) :
    ∃ goal ∈ goals, ∃ final, Grown p s final ∧ final.leveledOff = true ∧
      ¬Attained p.rules final.top.facts goal := by
  induction goals generalizing worst g with
  | nil => cases (Prod.mk.inj hlevel).1
  | cons goal goals ih =>
      obtain ⟨hgoal, hrest⟩ := List.forall_mem_cons.mp hgoals
      rw [RelaxedGraph.goalLevelFrom] at hlevel
      split at hlevel
      · rename_i level g' hg'
        obtain ⟨other, hother, hspec⟩ := ih (h.goalLevelOf hp hgoal hg').1 hrest hlevel
        exact ⟨other, List.mem_cons_of_mem _ hother, hspec⟩
      · rename_i g' hg'
        obtain ⟨hgrown, hend⟩ := h.goalLevelOf hp hgoal hg'
        exact ⟨goal, List.mem_cons_self .., g', hgrown, hend rfl⟩
      · cases (Prod.mk.inj hlevel).1

/-- **A conjunction without a level cannot be reached.** -/
theorem hopeless_of_goalLevel_eq_none (hp : p.Proper) (hs : s.Proper) {goals : List Atom}
    (hgoals : p.goal = .conjunction goals) {next : RelaxedGraph}
    (hlevel : goalLevel p goals (start s) = (.ok none, next)) : p.Hopeless s := by
  obtain ⟨goal, hgoal, final, hgrown, hleveled, hmissed⟩ :=
    (grown_start hs).goalLevelFrom hp (hp.goals goals hgoals) hlevel
  exact hgrown.hopeless hp hs hleveled hgoals hgoal hmissed

theorem start?_eq_ok (hp : p.Proper) (s : State) : start? p s = .ok (start s) := by
  have hrules : p.rules.forM (fun r => r.consequent.requireKey) = .ok () := forM_eq_ok fun r hr =>
    KnowledgeBase.requireKey_eq_ok (Clause.isProper_iff.mp (hp.kb.base.rules r hr).1).2
  rw [start?, hrules]
  rfl

end RelaxedGraph

namespace Problem

variable {p : Problem} {s : State}

theorem Proper.estimate_eq (hp : p.Proper) {goals : List Atom}
    (hgoals : p.goal = .conjunction goals) (s : State) :
    p.estimate s = (RelaxedGraph.goalLevel p goals (.start s)).1 := by
  rw [estimate, hgoals]
  dsimp only
  rw [RelaxedGraph.start?_eq_ok hp, ok_bind]

/-- **A state without an estimate is hopeless.** -/
theorem Proper.hopeless_of_estimate_eq_none (hp : p.Proper) (hs : s.Proper)
    (h : p.estimate s = .ok none) : p.Hopeless s := by
  cases hgoals : p.goal with
  | conjunction goals =>
      rw [hp.estimate_eq hgoals] at h
      exact RelaxedGraph.hopeless_of_goalLevel_eq_none hp hs hgoals (Prod.ext h rfl)
  | test passes =>
      rw [estimate, hgoals] at h
      cases h

end Problem

end HornPlan
