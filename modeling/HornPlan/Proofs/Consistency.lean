import HornPlan.Proofs.Levels
import HornPlan.Proofs.Plans

/-!
# Estimates are consistent

An action lowers the estimate by at most one, and where the goal is reached the estimate is zero
(`Problem.Proper.estimate_consistent`).

The graph of a state and that of its successor are compared layer by layer.  A layer adds no less
than what a smaller layer adds (`mem_of_mem_raised`), so layer `i` of the graph of the successor has
no facts that layer `i + 1` of the graph of the state does not have (`Layered.facts_subset_next`).
The two graphs may level off at different heights.  Once the graph of the state has leveled off, its
top layer has the facts of all layers of the other (`Layered.facts_subset_top`).

A goal that some layer of the graph of the successor matches is therefore matched in the graph of
the state, at most one layer higher (`Layered.goalLevelOf_le`).  A goal that a rule concludes has
level zero in both.  The rest is an induction over the goals.
-/

namespace HornPlan

namespace RelaxedGraph

variable {p : Problem} {s t : State} {g g' next next' : RelaxedGraph}

/-! ## Larger layers add more -/

theorem mem_of_mem_raised (hp : p.Proper) {layer raised larger : State} (hlayer : layer.Proper)
    (hlarger : larger.Proper) (hsub : layer.facts ⊆ larger.facts) (hraises : Raises p layer raised)
    {added : List Atom} (hadded : additions p larger = .ok added) {f : Atom}
    (hf : f ∈ raised.facts) :
    f ∈ larger.facts ∨ f ∈ added := by
  obtain ⟨smaller, hsmaller, rfl⟩ := hraises
  have hproper : ∀ f ∈ smaller, f.isProper :=
    fun f hf => (closed_of_mem_additions hp hlayer hsmaller hf).1
  rcases (State.mem_insertAll hproper).mp hf with hf | hf
  · obtain ⟨-, schema, hschema, grounded, hgrounded, a, ha, hfa⟩ :=
      (additions_spec hlayer hsmaller).1 f hf
    obtain ⟨more, hmore, hspec⟩ := (additions_spec hlarger hadded).2 schema hschema
    obtain ⟨_, -, hknowledge, -⟩ := hp.exists_knowledge
    obtain ⟨a', ha', hsame⟩ := Action.groundings_mono (hp.actions schema hschema)
      (fun f hf => hlarger.closed f (Enumeration.mem_listing.mp hf))
      (fun f hf => Enumeration.mem_listing.mpr (hsub (Enumeration.mem_listing.mp hf))) hknowledge
      hgrounded hmore ha
    exact hspec a' ha' f (hsame ▸ hfa)
  · exact Or.inl (hsub hf)

/-- Of two chains the one that begins higher stays higher. -/
theorem facts_subset_of_chains (hp : p.Proper) {layers larger : List State}
    (hproper : ∀ layer ∈ layers, layer.Proper) (hchain : layers.IsChain (Raises p))
    (hproper' : ∀ layer ∈ larger, layer.Proper) (hchain' : larger.IsChain (Raises p))
    (hfirst : ∀ layer ∈ layers.head?, ∀ higher ∈ larger.head?, layer.facts ⊆ higher.facts) {i : Nat}
    {layer higher : State} (hlayer : layers[i]? = some layer) (hhigher : larger[i]? = some higher) :
    layer.facts ⊆ higher.facts := by
  -- induction on the number of the layer: the next layers of both chains are compared as the first
  -- ones were
  induction i generalizing layers larger with
  | zero =>
      rw [← List.head?_eq_getElem?] at hlayer hhigher
      exact hfirst layer hlayer higher hhigher
  | succ i ih =>
      cases layers with
      | nil => cases hlayer
      | cons low layers =>
          cases larger with
          | nil => cases hhigher
          | cons high larger =>
              obtain ⟨hlow, hlayers⟩ := List.forall_mem_cons.mp hproper
              obtain ⟨hhigh, hlarger⟩ := List.forall_mem_cons.mp hproper'
              obtain ⟨hraises, hchain⟩ := List.isChain_cons.mp hchain
              obtain ⟨hraises', hchain'⟩ := List.isChain_cons.mp hchain'
              refine ih hlayers hchain hlarger hchain' ?_ hlayer hhigher
              intro raised hraised more hmore f hf
              obtain ⟨added, hadded, rfl⟩ := hraises' more hmore
              have hsub := hfirst low rfl high rfl
              have hheld := mem_of_mem_raised hp hlow hhigh hsub (hraises raised hraised) hadded hf
              refine (State.mem_insertAll ?_).mpr hheld.symm
              intro f hf
              exact (closed_of_mem_additions hp hhigh hadded hf).1

/-- A layer that adds nothing has all facts of a chain that begins below it. -/
theorem facts_subset_of_leveled (hp : p.Proper) {top : State} (htop : top.Proper)
    (hadded : additions p top = .ok []) {layers : List State}
    (hproper : ∀ layer ∈ layers, layer.Proper) (hchain : layers.IsChain (Raises p))
    (hfirst : ∀ layer ∈ layers.head?, layer.facts ⊆ top.facts) :
    ∀ layer ∈ layers, layer.facts ⊆ top.facts := by
  induction layers with
  | nil => exact fun layer hlayer => absurd hlayer List.not_mem_nil
  | cons low layers ih =>
      obtain ⟨hlow, hlayers⟩ := List.forall_mem_cons.mp hproper
      obtain ⟨hraises, hchain⟩ := List.isChain_cons.mp hchain
      have hsub := hfirst low rfl
      refine List.forall_mem_cons.mpr ⟨hsub, ih hlayers hchain ?_⟩
      intro raised hraised f hf
      exact (mem_of_mem_raised hp hlow htop hsub (hraises raised hraised) hadded hf).resolve_right
        List.not_mem_nil

/-! ## The graphs of a state and of a successor -/

section

variable (hp : p.Proper) (hs : s.Proper) {l : List (Action × State)} (hl : p.successors s = .ok l)
  {a : Action} (hmem : (a, t) ∈ l)

include hp hs hl hmem

/-- **A layer of the graph of a successor has no facts that the next layer of the graph of the state
does not have.** -/
theorem Layered.facts_subset_next (h : Layered p s g) (h' : Layered p t g') {i : Nat}
    {layer higher : State} (hlayer : g'.layers[i]? = some layer)
    (hhigher : g.layers[i + 1]? = some higher) :
    layer.facts ⊆ higher.facts := by
  obtain ⟨-, hlater⟩ := List.forall_mem_cons.mp h.proper_layers
  obtain ⟨hraises, hchain⟩ := List.isChain_cons.mp h.chain
  refine facts_subset_of_chains hp h'.proper_layers h'.chain hlater hchain ?_ hlayer hhigher
  intro first hfirst second hsecond
  obtain rfl := Option.some.inj hfirst
  rw [h'.first]
  have hsecond := hraises second hsecond
  rw [h.first] at hsecond
  exact hsecond.facts_subset hp hs hs hl hmem (List.Subset.refl _)

/-- The top layer of a graph that has leveled off has the facts of all layers of the graph of a
successor. -/
theorem Layered.facts_subset_top (h : Layered p s g) (hleveled : g.leveledOff = true)
    (h' : Layered p t g') :
    ∀ layer ∈ g'.layers, layer.facts ⊆ g.top.facts := by
  refine facts_subset_of_leveled hp h.proper (h.leveled hleveled) h'.proper_layers h'.chain ?_
  intro first hfirst
  obtain rfl := Option.some.inj hfirst
  rw [h'.first]
  exact h.facts_subset_of_successor hp hleveled hs hl hmem h.facts_subset

end

/-! ## The levels of goals -/

theorem goalLevelOf_of_concluded {goal : Atom} (hgoal : goal.isProper)
    (hrule : ∃ r ∈ p.rules, r.consequent.key = goal.key) (g : RelaxedGraph) :
    goalLevelOf p goal g = (.ok (some 0), g) := by
  obtain ⟨r, hr, hkey⟩ := hrule
  have hany : p.rules.any fun r => r.consequent.key == goal.key :=
    List.any_eq_true.mpr ⟨r, hr, (Atom.key_beq_iff (Or.inr hgoal)).mpr hkey⟩
  rw [goalLevelOf, KnowledgeBase.requireKey_eq_ok hgoal]
  exact if_pos hany

theorem goalLevelOf_of_not_concluded {goal : Atom} (hgoal : goal.isProper)
    (hrules : ¬∃ r ∈ p.rules, r.consequent.key = goal.key) (g : RelaxedGraph) :
    goalLevelOf p goal g = findLevel p (matchesGoal p goal) g := by
  rw [goalLevelOf, KnowledgeBase.requireKey_eq_ok hgoal]
  refine if_neg fun hany => hrules ?_
  obtain ⟨r, hr, hkey⟩ := List.any_eq_true.mp hany
  exact ⟨r, hr, (Atom.key_beq_iff (Or.inr hgoal)).mp hkey⟩

theorem exists_of_levelWhere_eq_some {passes : State → Except Error Bool} {index level : Nat}
    {layers : List State} (h : levelWhere passes index layers = .ok (some level)) :
    ∃ i layer, level = index + i ∧ layers[i]? = some layer ∧ passes layer = .ok true := by
  induction layers generalizing index with
  | nil => cases h
  | cons layer rest ih =>
      obtain ⟨passed, hpassed, h⟩ := bind_eq_ok.mp h
      cases passed with
      | true =>
          obtain rfl := Option.some.inj (Except.ok.inj h)
          exact ⟨0, layer, rfl, rfl, hpassed⟩
      | false =>
          obtain ⟨i, other, rfl, hother, hpasses⟩ := ih h
          exact ⟨i + 1, other, by omega, hother, hpasses⟩

/-- Looking for a goal that no rule concludes: a level is that of the first layer with a match, and
without a level the graph has leveled off and its top layer has no match. -/
theorem Layered.findLevel_cases (hp : p.Proper) (h : Layered p s g) {goal : Atom}
    (hgoal : goal.isProper) {level : Option Nat}
    (hlevel : findLevel p (matchesGoal p goal) g = (.ok level, next)) :
    Layered p s next ∧
      (∀ n, level = some n →
        (∃ layer, next.layers[n]? = some layer ∧ ∃ k : Variable → Term, goal.bind k ∈ layer.facts) ∧
        ∀ i < n, ∀ layer, next.layers[i]? = some layer →
          ∀ k : Variable → Term, goal.bind k ∉ layer.facts) ∧
      (level = none → next.leveledOff = true ∧
        ∀ k : Variable → Term, goal.bind k ∉ next.top.facts) := by
  obtain ⟨hlayered, hfound, -⟩ := h.expandUntil hp hlevel
  -- the layers tell what a level means, and how the search ends tells what it means that there is
  -- none
  rw [findLevel, h.first] at hlevel
  obtain ⟨hgrown, hend⟩ :=
    h.toGrown.expandUntil hp (fun g g' hsame => by rw [hsame]) (Nat.le_add_right _ _) hlevel
  refine ⟨hlayered, ?_, ?_⟩
  · rintro n rfl
    have hwhere := hfound n rfl
    obtain ⟨before, after, hlayers, hn, hbefore⟩ := levelWhere_eq_some hwhere
    obtain ⟨i, layer, hi, hlayer, hpasses⟩ := exists_of_levelWhere_eq_some hwhere
    rw [Nat.zero_add] at hn hi
    subst hi
    have hproper := hlayered.proper_layers layer (List.mem_of_getElem? hlayer)
    refine ⟨⟨layer, hlayer, (matchesGoal_eq hproper hgoal hpasses).mp rfl⟩, ?_⟩
    intro j hj other hother k hk
    have hmem : other ∈ before := by
      rw [hlayers, List.getElem?_append_left (hn ▸ hj)] at hother
      exact List.mem_of_getElem? hother
    have hproper := hlayered.proper_layers other (List.mem_of_getElem? hother)
    exact absurd ((matchesGoal_eq hproper hgoal (hbefore other hmem)).mpr ⟨k, hk⟩)
      Bool.false_ne_true
  · rintro rfl
    obtain ⟨hleveled, hnone⟩ := hend rfl
    refine ⟨hleveled, fun k hk => ?_⟩
    have hmissed := levelWhere_eq_none hnone next.top (top_mem_layers next)
    exact absurd ((matchesGoal_eq hgrown.proper hgoal hmissed).mpr ⟨k, hk⟩) Bool.false_ne_true

section

variable (hp : p.Proper) (hs : s.Proper) {l : List (Action × State)} (hl : p.successors s = .ok l)
  {a : Action} (hmem : (a, t) ∈ l)

include hp hs hl hmem

/-- **Where a goal has a level in the graph of a successor, it has one in the graph of the state, at
most one higher.** -/
theorem Layered.goalLevelOf_le (h : Layered p s g) (h' : Layered p t g') {goal : Atom}
    (hgoal : goal.isProper) {level : Option Nat} {level' : Nat}
    (hlevel : goalLevelOf p goal g = (.ok level, next))
    (hlevel' : goalLevelOf p goal g' = (.ok (some level'), next')) :
    Layered p s next ∧ Layered p t next' ∧ ∃ n, level = some n ∧ n ≤ level' + 1 := by
  by_cases hrule : ∃ r ∈ p.rules, r.consequent.key = goal.key
  · rw [goalLevelOf_of_concluded hgoal hrule] at hlevel hlevel'
    cases hlevel
    cases hlevel'
    exact ⟨h, h', 0, rfl, Nat.zero_le _⟩
  · rw [goalLevelOf_of_not_concluded hgoal hrule] at hlevel hlevel'
    obtain ⟨hlayered, hsome, hnone⟩ := h.findLevel_cases hp hgoal hlevel
    obtain ⟨hlayered', hsome', -⟩ := h'.findLevel_cases hp hgoal hlevel'
    obtain ⟨⟨layer, hlayer, k, hk⟩, -⟩ := hsome' level' rfl
    refine ⟨hlayered, hlayered', ?_⟩
    cases level with
    | none =>
        -- the top layer would match
        obtain ⟨hleveled, hmissed⟩ := hnone rfl
        have hsub := hlayered.facts_subset_top hp hs hl hmem hleveled hlayered' layer
          (List.mem_of_getElem? hlayer)
        exact absurd (hsub hk) (hmissed k)
    | some n =>
        obtain ⟨⟨found, hfound, -⟩, hbefore⟩ := hsome n rfl
        refine ⟨n, rfl, ?_⟩
        by_contra hhigher
        have hn : n < next.layers.length := (List.getElem?_eq_some_iff.mp hfound).1
        have hlt : level' + 1 < n := by omega
        have hnext : next.layers[level' + 1]? = some next.layers[level' + 1] :=
          List.getElem?_eq_getElem _
        have hsub := hlayered.facts_subset_next hp hs hl hmem hlayered' hlayer hnext
        exact hbefore (level' + 1) hlt _ hnext k (hsub hk)

theorem Layered.goalLevelFrom_le_succ (h : Layered p s g) (h' : Layered p t g') {goals : List Atom}
    (hgoals : ∀ goal ∈ goals, goal.isProper) {worst worst' : Nat} (hworst : worst ≤ worst' + 1)
    {level : Option Nat} {level' : Nat} (hlevel : goalLevelFrom p worst goals g = (.ok level, next))
    (hlevel' : goalLevelFrom p worst' goals g' = (.ok (some level'), next')) :
    ∃ n, level = some n ∧ n ≤ level' + 1 := by
  -- induction on the goals, with the worst levels so far compared in the same way
  induction goals generalizing worst worst' g g' with
  | nil =>
      cases hlevel
      cases hlevel'
      exact ⟨worst, rfl, hworst⟩
  | cons goal goals ih =>
      obtain ⟨hgoal, hrest⟩ := List.forall_mem_cons.mp hgoals
      rw [RelaxedGraph.goalLevelFrom] at hlevel hlevel'
      split at hlevel'
      · rename_i first' raised' hfirst'
        split at hlevel
        · rename_i first raised hfirst
          obtain ⟨hraised, hraised', n, hn, hle⟩ :=
            h.goalLevelOf_le hp hs hl hmem h' hgoal hfirst hfirst'
          obtain rfl := Option.some.inj hn
          exact ih hraised hraised' hrest (by omega) hlevel hlevel'
        · rename_i raised hfirst
          obtain ⟨-, -, n, hn, -⟩ := h.goalLevelOf_le hp hs hl hmem h' hgoal hfirst hfirst'
          cases hn
        · cases (Prod.mk.inj hlevel).1
      · cases (Prod.mk.inj hlevel').1
      · cases (Prod.mk.inj hlevel').1

end

/-! ## Where the goal is reached -/

theorem goalLevelOf_start (hs : s.Proper) {goal : Atom} (hgoal : goal.isProper)
    (hattained : Attained p.rules s.facts goal) :
    goalLevelOf p goal (start s) = (.ok (some 0), start s) := by
  by_cases hrule : ∃ r ∈ p.rules, r.consequent.key = goal.key
  · exact goalLevelOf_of_concluded hgoal hrule _
  · rw [goalLevelOf_of_not_concluded hgoal hrule, findLevel]
    obtain ⟨passed, hpassed⟩ := exists_matchesGoal hs hgoal
    obtain rfl := (matchesGoal_eq hs hgoal hpassed).mpr (hattained.resolve_left hrule)
    have hfound : levelWhere (matchesGoal p goal) 0 (start s).layers = .ok (some 0) := by
      rw [start, layers, levelWhere, hpassed]
      rfl
    cases layerBound p (start s).first with
    | zero => rw [expandUntil, hfound]
    | succ bound => rw [expandUntil, hfound]

theorem goalLevel_start (hs : s.Proper) {goals : List Atom} (hgoals : ∀ goal ∈ goals, goal.isProper)
    (hattained : ∀ goal ∈ goals, Attained p.rules s.facts goal) :
    goalLevel p goals (start s) = (.ok (some 0), start s) := by
  rw [goalLevel]
  induction goals with
  | nil => rfl
  | cons goal goals ih =>
      obtain ⟨hgoal, hrest⟩ := List.forall_mem_cons.mp hgoals
      obtain ⟨hfirst, hothers⟩ := List.forall_mem_cons.mp hattained
      rw [goalLevelFrom, goalLevelOf_start hs hgoal hfirst]
      exact ih hrest hothers

end RelaxedGraph

namespace Problem

variable {p : Problem} {s : State} {goals : List Atom}

/-- Where the estimate of a successor is a number, so is that of the state, and it is at most one
larger. -/
theorem Proper.estimate_le_succ (hp : p.Proper) (hgoals : p.goal = .conjunction goals)
    (hs : s.Proper) {l : List (Action × State)} (hl : p.successors s = .ok l) {a : Action}
    {t : State} (hmem : (a, t) ∈ l) {before : Option Nat} {after : Nat}
    (hbefore : p.estimate s = .ok before) (hafter : p.estimate t = .ok (some after)) :
    ∃ n, before = some n ∧ n ≤ after + 1 := by
  rw [hp.estimate_eq hgoals] at hbefore hafter
  exact (RelaxedGraph.layered_start hs).goalLevelFrom_le_succ hp hs hl hmem
    (RelaxedGraph.layered_start (hp.successor hs hl hmem)) (hp.goals goals hgoals) (Nat.zero_le _)
    (Prod.ext hbefore rfl) (Prod.ext hafter rfl)

theorem Proper.estimate_eq_zero (hp : p.Proper) (hgoals : p.goal = .conjunction goals)
    (hs : s.Proper) (hreaches : p.reaches s = .ok true) : p.estimate s = .ok (some 0) := by
  rw [Problem.reaches, hgoals] at hreaches
  have hproper := hp.goals goals hgoals
  have hattained := attained_of_holds hs (fun r hr => (hp.kb.base.rules r hr).1) hproper hreaches
  rw [hp.estimate_eq hgoals, RelaxedGraph.goalLevel_start hs hproper hattained]

/-- **Estimates are consistent.**  An action lowers the estimate by at most one and does not make a
hopeless state hopeful, and where the goal is reached the estimate is returned and zero.  So an
estimate is a number no larger than the length of any path to the goal, and a state without one has
no such path. -/
theorem Proper.estimate_consistent (hp : p.Proper) (hgoals : p.goal = .conjunction goals)
    (hs : s.Proper) :
    (∀ l a t before after, p.successors s = .ok l → (a, t) ∈ l → p.estimate s = .ok before →
      p.estimate t = .ok after →
      (∀ k, after = some k → ∃ n, before = some n ∧ n ≤ k + 1) ∧ (before = none → after = none)) ∧
    (p.reaches s = .ok true → p.estimate s = .ok (some 0)) ∧
    (∀ estimate, p.estimate s = .ok estimate → ∀ as t, p.Leads s as t → p.reaches t = .ok true →
      ∃ n, estimate = some n ∧ n ≤ as.length) := by
  refine ⟨?_, hp.estimate_eq_zero hgoals hs, ?_⟩
  · intro l a t before after hl hmem hbefore hafter
    have hstep : ∀ k, after = some k → ∃ n, before = some n ∧ n ≤ k + 1 := by
      rintro k rfl
      exact hp.estimate_le_succ hgoals hs hl hmem hbefore hafter
    refine ⟨hstep, fun hnone => ?_⟩
    cases after with
    | none => rfl
    | some k =>
        obtain ⟨n, hn, -⟩ := hstep k rfl
        cases hnone.symm.trans hn
  · intro estimate hestimate as t hleads hreaches
    cases estimate with
    | none => exact absurd hreaches (hp.hopeless_of_estimate_eq_none hs hestimate as t hleads)
    | some n => exact ⟨n, rfl, hp.estimate_le hs hestimate hleads hreaches⟩

/-- One action is left where the cake is there, and one where it has been eaten. -/
theorem estimate_consistent_haveCake : ∃ p goals l a t, Worlds.haveCake = .ok p ∧ p.Proper ∧
    p.goal = .conjunction goals ∧ p.initialState.Proper ∧ p.successors p.initialState = .ok l ∧
    (a, t) ∈ l ∧ p.estimate t = .ok (some 1) ∧
    (∀ before, p.estimate p.initialState = .ok before → ∃ n, before = some n ∧ n ≤ 1 + 1) ∧
    (p.reaches p.initialState = .ok true → p.estimate p.initialState = .ok (some 0)) ∧
    (∀ estimate, p.estimate p.initialState = .ok estimate → ∀ as u, p.Leads p.initialState as u →
      p.reaches u = .ok true → ∃ n, estimate = some n ∧ n ≤ as.length) := by
  obtain ⟨p, hcake, hproper⟩ := exists_haveCake
  -- the first successor is the state in which the cake has been eaten
  have hvalues : (Worlds.haveCake.toOption.bind fun p => p.goals?.bind fun _ =>
      (p.successors p.initialState).toOption.bind fun l => l.head?.bind fun step =>
        (p.estimate step.2).toOption) = some (some 1) := by
    decide +kernel
  rw [hcake, Except.toOption, Option.bind_some] at hvalues
  simp only [Option.bind_eq_some_iff] at hvalues
  obtain ⟨goals, hgoals, l, hl, ⟨a, t⟩, hstep, hestimate⟩ := hvalues
  have hconjunction : p.goal = .conjunction goals := by
    unfold goals? at hgoals
    split at hgoals
    · rename_i conjuncts hconjunction
      obtain rfl := Option.some.inj hgoals
      exact hconjunction
    · cases hgoals
  have hl := eq_ok_of_toOption hl
  have hestimate := eq_ok_of_toOption hestimate
  have hmem : (a, t) ∈ l := List.mem_of_head? hstep
  obtain ⟨hstep, hzero, hpath⟩ := hproper.estimate_consistent hconjunction hproper.initialState
  exact ⟨p, goals, l, a, t, hcake, hproper, hconjunction, hproper.initialState, hl, hmem, hestimate,
    fun before hbefore => (hstep l a t before _ hl hmem hbefore hestimate).1 1 rfl, hzero, hpath⟩

end Problem

end HornPlan
