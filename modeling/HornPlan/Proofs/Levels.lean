import HornPlan.Proofs.RelaxedGraphs
import Mathlib.Data.List.Chain

/-!
# Levels are lower bounds

Every layer of a graph is the one before it with what that one adds (`Layered`), and what an action
adds to a state is added by a layer with the facts of the state.  So along a path each action goes
up at most one layer: the layer whose number is the length of the path has all facts of the state at
its end (`Layered.facts_subset_layer`).

A goal that a path makes true is therefore matched by a layer with a number no larger than the
length of the path, and the estimate of a state is at most the length of every path from it to the
goal (`Problem.Proper.estimate_le`).
-/

namespace HornPlan

namespace RelaxedGraph

variable {p : Problem} {s : State} {g : RelaxedGraph}

/-! ## Layers -/

/-- A layer is the one before it with what that one adds. -/
def Raises (p : Problem) (layer next : State) : Prop :=
  ∃ added, additions p layer = .ok added ∧ next = layer.insertAll added

/-- The invariant of a graph with all its layers: each of them is proper and raises the one before
it. -/
structure Layered (p : Problem) (s : State) (g : RelaxedGraph) : Prop extends Grown p s g where
  proper_layers : ∀ layer ∈ g.layers, layer.Proper
  chain : g.layers.IsChain (Raises p)

theorem layered_start (hs : s.Proper) : Layered p s (start s) := by
  refine ⟨grown_start hs, ?_, List.isChain_singleton _⟩
  intro layer hlayer
  obtain rfl := List.mem_singleton.mp hlayer
  exact hs

theorem getLast?_layers (g : RelaxedGraph) : g.layers.getLast? = some g.top :=
  List.getLast?_cons

/-- **Expanding keeps the invariant**, also where it fails. -/
theorem Layered.expand (hp : p.Proper) (h : Layered p s g) {b : Bool} {next : RelaxedGraph}
    (hexpand : expand p g = (.ok b, next)) : Layered p s next := by
  obtain ⟨hgrown, -, -⟩ := h.toGrown.expand hp hexpand
  rcases expand_cases hexpand with ⟨-, -, rfl⟩ | ⟨-, -, rfl⟩ | ⟨added, -, -, hadded, -, rfl⟩
  · exact h
  · exact ⟨hgrown, h.proper_layers, h.chain⟩
  · have hclosed : ∀ f ∈ added, f.Closed :=
      fun f hf => closed_of_mem_additions hp h.proper hadded hf
    have hlayers : ({ g with later := g.later ++ [g.top.insertAll added] } : RelaxedGraph).layers
        = g.layers ++ [g.top.insertAll added] := rfl
    refine ⟨hgrown, ?_, ?_⟩ <;> rw [hlayers]
    · intro layer hlayer
      rcases List.mem_append.mp hlayer with hlayer | hlayer
      · exact h.proper_layers layer hlayer
      · obtain rfl := List.mem_singleton.mp hlayer
        exact h.proper.insertAll hclosed
    · refine List.isChain_append.mpr ⟨h.chain, List.isChain_singleton _, ?_⟩
      intro layer hlayer next hnext
      rw [getLast?_layers] at hlayer
      obtain rfl := Option.some.inj hlayer
      obtain rfl := Option.some.inj hnext
      exact ⟨added, hadded, rfl⟩

theorem expand_eq_error {e : Error} {next : RelaxedGraph}
    (hexpand : expand p g = (.error e, next)) :
    next = g ∧ additions p g.top = .error e := by
  unfold RelaxedGraph.expand at hexpand
  split at hexpand
  · cases (Prod.mk.inj hexpand).1
  · split at hexpand
    · rename_i hadded
      obtain ⟨herror, rfl⟩ := Prod.mk.inj hexpand
      exact ⟨rfl, hadded.trans (congrArg _ (Except.error.inj herror))⟩
    · cases (Prod.mk.inj hexpand).1
    · cases (Prod.mk.inj hexpand).1

/-- What expansion answers has been found for the graph that it leaves behind; an error is that of
the question, or that of the top layer. -/
theorem Layered.expandUntil (hp : p.Proper) {α : Type}
    {found : RelaxedGraph → Except Error (Option α)} {layers : Nat} (h : Layered p s g)
    {answer : Except Error (Option α)} {next : RelaxedGraph}
    (hexpand : expandUntil p found layers g = (answer, next)) : Layered p s next ∧
      (∀ a, answer = .ok (some a) → found next = .ok (some a)) ∧
      ∀ e, answer = .error e → found next = .error e ∨ additions p next.top = .error e := by
  -- induction on the layers left: a question is answered, or one layer more is expanded
  induction layers generalizing g with
  | zero =>
      obtain ⟨rfl, rfl⟩ := Prod.mk.inj hexpand
      exact ⟨h, fun _ ha => ha, fun _ he => Or.inl he⟩
  | succ layers ih =>
      rw [RelaxedGraph.expandUntil] at hexpand
      split at hexpand
      · rename_i hfound
        obtain ⟨rfl, rfl⟩ := Prod.mk.inj hexpand
        refine ⟨h, by rintro _ ⟨⟩, ?_⟩
        exact fun _ he => Or.inl (hfound.trans (congrArg _ (Except.error.inj he)))
      · rename_i hfound
        obtain ⟨rfl, rfl⟩ := Prod.mk.inj hexpand
        exact ⟨h, fun _ ha => hfound.trans ha, by rintro _ ⟨⟩⟩
      · split at hexpand
        · rename_i hg'
          obtain ⟨rfl, hadded⟩ := expand_eq_error hg'
          obtain ⟨rfl, rfl⟩ := Prod.mk.inj hexpand
          refine ⟨h, by rintro _ ⟨⟩, ?_⟩
          exact fun _ he => Or.inr (hadded.trans (congrArg _ (Except.error.inj he)))
        · rename_i hg'
          obtain ⟨rfl, rfl⟩ := Prod.mk.inj hexpand
          exact ⟨h.expand hp hg', by rintro _ ⟨⟩, by rintro _ ⟨⟩⟩
        · rename_i hg'
          exact ih (h.expand hp hg') hexpand

/-! ## Paths go up the layers -/

theorem Raises.facts_subset (hp : p.Proper) {layer next : State} (h : Raises p layer next)
    (hlayer : layer.Proper) {t u : State} {a : Action} {l : List (Action × State)} (ht : t.Proper)
    (hl : p.successors t = .ok l) (hmem : (a, u) ∈ l) (hsub : t.facts ⊆ layer.facts) :
    u.facts ⊆ next.facts := by
  obtain ⟨added, hadded, rfl⟩ := h
  intro f hf
  refine (State.mem_insertAll ?_).mpr
    (facts_subset_of_additions hp hlayer hadded ht hl hmem hsub hf).symm
  intro f hf
  exact (closed_of_mem_additions hp hlayer hadded hf).1

/-- Along a path the layers of a chain keep up with the states. -/
theorem facts_subset_of_chain (hp : p.Proper) {layers : List State} {t u : State} {as : List Action}
    (hleads : p.Leads t as u) (ht : t.Proper) (hproper : ∀ layer ∈ layers, layer.Proper)
    (hchain : layers.IsChain (Raises p)) (hfirst : ∀ layer ∈ layers.head?, t.facts ⊆ layer.facts)
    {layer : State} (hlayer : layers[as.length]? = some layer) : u.facts ⊆ layer.facts := by
  induction hleads generalizing layers with
  | nil =>
      cases layers with
      | nil => cases hlayer
      | cons first rest => exact hfirst layer hlayer
  | @cons t v u a as l hl hmem _ ih =>
      cases layers with
      | nil => cases hlayer
      | cons first rest =>
          obtain ⟨hproperFirst, hproperRest⟩ := List.forall_mem_cons.mp hproper
          have hsub : t.facts ⊆ first.facts := hfirst first rfl
          obtain ⟨hraises, hchain⟩ := List.isChain_cons.mp hchain
          refine ih (hp.successor ht hl hmem) hproperRest hchain ?_ hlayer
          intro next hnext
          exact (hraises next hnext).facts_subset hp hproperFirst ht hl hmem hsub

/-- **The layer whose number is the length of a path has the facts of the state at its end.** -/
theorem Layered.facts_subset_layer (hp : p.Proper) (hs : s.Proper) (h : Layered p s g) {t : State}
    {as : List Action} (hleads : p.Leads s as t) {layer : State}
    (hlayer : g.layers[as.length]? = some layer) : t.facts ⊆ layer.facts := by
  refine facts_subset_of_chain hp hleads hs h.proper_layers h.chain ?_ hlayer
  intro first hfirst
  obtain rfl := Option.some.inj hfirst
  rw [h.first]
  exact List.Subset.refl _

/-! ## The levels of goals -/

/-- The level that is found is the number of layers before the first one that passes. -/
theorem levelWhere_eq_some {passes : State → Except Error Bool} {index level : Nat}
    {layers : List State} (h : levelWhere passes index layers = .ok (some level)) :
    ∃ before after, layers = before ++ after ∧
      level = index + before.length ∧ ∀ layer ∈ before, passes layer = .ok false := by
  induction layers generalizing index with
  | nil => cases h
  | cons layer rest ih =>
      obtain ⟨passed, hpassed, h⟩ := bind_eq_ok.mp h
      cases passed with
      | true =>
          obtain rfl := Option.some.inj (Except.ok.inj h)
          exact ⟨[], layer :: rest, rfl, rfl, fun _ hmem => absurd hmem List.not_mem_nil⟩
      | false =>
          obtain ⟨before, after, rfl, rfl, hbefore⟩ := ih h
          refine ⟨layer :: before, after, rfl, ?_, List.forall_mem_cons.mpr ⟨hpassed, hbefore⟩⟩
          rw [List.length_cons]
          omega

/-- What is asked of a graph when the level of a goal is asked for: nothing where a rule concludes
the goal, and else how far its layers reach. -/
theorem Layered.goalLevelOf_cases (hp : p.Proper) (h : Layered p s g) {goal : Atom}
    (hgoal : goal.isProper) {answer : Except Error (Option Nat)} {next : RelaxedGraph}
    (hlevel : goalLevelOf p goal g = (answer, next)) : Layered p s next ∧ (answer = .ok (some 0) ∨
      (∀ r ∈ p.rules, r.consequent.key ≠ goal.key) ∧
      (∀ level, answer = .ok (some level) →
        levelWhere (matchesGoal p goal) 0 next.layers = .ok (some level)) ∧
      ∀ e, answer = .error e →
        levelWhere (matchesGoal p goal) 0 next.layers = .error e ∨
        additions p next.top = .error e) := by
  unfold RelaxedGraph.goalLevelOf at hlevel
  rw [KnowledgeBase.requireKey_eq_ok hgoal] at hlevel
  dsimp only at hlevel
  split at hlevel
  · obtain ⟨rfl, rfl⟩ := Prod.mk.inj hlevel
    exact ⟨h, Or.inl rfl⟩
  · rename_i hrules
    obtain ⟨hlayered, hfound, hfailed⟩ := h.expandUntil hp hlevel
    refine ⟨hlayered, Or.inr ⟨?_, hfound, hfailed⟩⟩
    intro r hr hkey
    exact hrules (List.any_eq_true.mpr ⟨r, hr, (Atom.key_beq_iff (Or.inr hgoal)).mpr hkey⟩)

theorem exists_matchesGoal {layer : State} (hlayer : layer.Proper) {goal : Atom}
    (hgoal : goal.isProper) :
    ∃ b, matchesGoal p goal layer = .ok b := by
  have hlisted : goal.hasListedVariable = false := Term.hasListedVariable_eq_false hgoal
  rw [matchesGoal, hlayer.requireListing_eq, ok_bind, hlisted]
  exact ⟨_, rfl⟩

/-- **The level of a goal is at most the length of a path that attains it.** -/
theorem Layered.level_le (hp : p.Proper) (hs : s.Proper) (h : Layered p s g) {goal : Atom}
    (hgoal : goal.isProper) {level : Nat}
    (hlevel : levelWhere (matchesGoal p goal) 0 g.layers = .ok (some level)) {t : State}
    {as : List Action} (hleads : p.Leads s as t) {k : Variable → Term}
    (hmatch : goal.bind k ∈ t.facts) :
    level ≤ as.length := by
  obtain ⟨before, after, hlayers, rfl, hbefore⟩ := levelWhere_eq_some hlevel
  by_contra hlonger
  have hlt : as.length < before.length := by omega
  have hlayer : g.layers[as.length]? = some before[as.length] := by
    rw [hlayers, List.getElem?_append_left hlt, List.getElem?_eq_getElem hlt]
  -- the layer comes before the first one that matches, and it has the fact that does
  have hmissed := hbefore before[as.length] (List.getElem_mem hlt)
  have hproper := h.proper_layers _ (List.mem_of_getElem? hlayer)
  have hmem := h.facts_subset_layer hp hs hleads hlayer hmatch
  exact absurd ((matchesGoal_eq hproper hgoal hmissed).mpr ⟨k, hmem⟩) Bool.false_ne_true

theorem Layered.goalLevelFrom_le (hp : p.Proper) (hs : s.Proper) (h : Layered p s g)
    {goals : List Atom} (hgoals : ∀ goal ∈ goals, goal.isProper) {t : State} {as : List Action}
    (hleads : p.Leads s as t) (hattained : ∀ goal ∈ goals, Attained p.rules t.facts goal)
    {worst level : Nat} (hworst : worst ≤ as.length) {next : RelaxedGraph}
    (hlevel : goalLevelFrom p worst goals g = (.ok (some level), next)) : level ≤ as.length := by
  -- induction on the goals; the level asked for next is that of the worst so far
  induction goals generalizing worst g with
  | nil =>
      obtain ⟨hanswer, -⟩ := Prod.mk.inj hlevel
      obtain rfl := Option.some.inj (Except.ok.inj hanswer)
      exact hworst
  | cons goal goals ih =>
      obtain ⟨hgoal, hrest⟩ := List.forall_mem_cons.mp hgoals
      obtain ⟨hfirst, hothers⟩ := List.forall_mem_cons.mp hattained
      rw [RelaxedGraph.goalLevelFrom] at hlevel
      split at hlevel
      · rename_i first g' hg'
        obtain ⟨hlayered, hcases⟩ := h.goalLevelOf_cases hp hgoal hg'
        refine ih hlayered hrest hothers (max_le hworst ?_) hlevel
        rcases hcases with hzero | ⟨hrules, hfound, -⟩
        · obtain rfl := Option.some.inj (Except.ok.inj hzero)
          exact Nat.zero_le _
        · rcases hfirst with ⟨r, hr, hkey⟩ | ⟨k, hk⟩
          · exact absurd hkey (hrules r hr)
          · exact hlayered.level_le hp hs hgoal (hfound first rfl) hleads hk
      · cases (Prod.mk.inj hlevel).1
      · cases (Prod.mk.inj hlevel).1

end RelaxedGraph

/-- **No path from a state to the goal is shorter than the estimate of the state.** -/
theorem Problem.Proper.estimate_le {p : Problem} (hp : p.Proper) {s : State} (hs : s.Proper)
    {estimate : Nat} (h : p.estimate s = .ok (some estimate)) {as : List Action} {t : State}
    (hleads : p.Leads s as t) (hreaches : p.reaches t = .ok true) : estimate ≤ as.length := by
  unfold Problem.estimate at h
  split at h
  · rename_i goals hgoals
    rw [RelaxedGraph.start?_eq_ok hp, ok_bind] at h
    rw [Problem.reaches, hgoals] at hreaches
    have hproper := hp.goals goals hgoals
    have hattained :=
      attained_of_holds (hleads.proper hp hs) (fun r hr => (hp.kb.base.rules r hr).1)
      hproper hreaches
    exact (RelaxedGraph.layered_start hs).goalLevelFrom_le hp hs hproper hleads hattained
      (Nat.zero_le _) (Prod.ext h rfl)
  · obtain rfl := Option.some.inj (Except.ok.inj h)
    exact Nat.zero_le _

end HornPlan
