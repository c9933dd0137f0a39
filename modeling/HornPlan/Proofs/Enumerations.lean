import HornPlan.Proofs.Listings
import HornPlan.Proofs.Plans

/-!
# When plans do not depend on the order in which states are gone through

The order of the texts is meant to be canonical: whichever way the facts of a state are gone
through, they are listed in one order, and what the planner does is settled by the state alone.
That is so where texts tell the facts of a state apart, and not otherwise
(`sortedByText_canonical_iff`).  In a plain problem they always do; in any other, some enumerations
may still list all states alike (`Problem.ListsAlike`).

Where two enumerations list all states alike that planning comes to, everything that is made of such
a state is the same for both.

* Whether a state reaches the goal is the same in any case (`Proper.reaches_under`), for what
  follows from a state does not depend on how the state is gone through.
* Successors and layers are made of the listing (`successors_under`, `additions_under`).
* A graph asks about its top layer, which planning comes to, so levels and estimates are the same
  (`Proper.estimate_under`).
* A search asks about nodes on its frontier, and a policy about these and about new ones.  So a step
  is the same (`Search.Asks.advance`), and with it a run (`Search.Asks.runFor`) and the planning
  (`Proper.planTimed_under`).
-/

namespace HornPlan

/-! ## Listings -/

namespace Enumeration

variable {e e' : Enumeration} {s : State}

/-- Some enumeration meets the facts of a state in a given order. -/
theorem exists_facts_eq {facts : List Atom} (h : facts.Perm s.facts) :
    ∃ e : Enumeration, e.facts s = facts := by
  classical
  refine ⟨⟨fun t => if t = s then facts else t.facts, fun t => ?_⟩, if_pos rfl⟩
  by_cases heq : t = s
  · rw [if_pos heq, heq]
    exact h
  · rw [if_neg heq]

/-- Where texts tell the facts of a state apart, all enumerations list them in one order. -/
theorem listing_eq_of_told (htold : ∀ f ∈ s.facts, ∀ g ∈ s.facts, f.text = g.text → f = g)
    (e e' : Enumeration) : e.listing s = e'.listing s :=
  (sortedByText_eq_of_perm (e.perm s) htold).trans (sortedByText_eq_of_perm (e'.perm s) htold).symm

/-- **All enumerations list a state alike exactly when texts tell its facts apart.** -/
theorem listing_eq_iff (e : Enumeration) (s : State) :
    (∀ e' : Enumeration, e'.listing s = e.listing s) ↔
    ∀ f ∈ s.facts, ∀ g ∈ s.facts, f.text = g.text → f = g := by
  refine ⟨fun h => sortedByText_canonical_iff.mp fun others hperm => ?_,
    fun htold e' => listing_eq_of_told htold e' e⟩
  obtain ⟨e', he'⟩ := exists_facts_eq hperm
  have hothers : sortedFacts others = e.listing s := he' ▸ h e'
  exact hothers.trans (h byCode).symm

theorem entries_eq (hs : s.Proper) : e.entries s = (e.listing s).map Atom.toTerm := by
  rw [entries, hs.others, List.nil_append, sortedByText_map]
  rfl

theorem knowledgeBase_congr (hs : s.Proper) (h : e.listing s = e'.listing s) (rules : List Clause) :
    e.knowledgeBase s rules = e'.knowledgeBase s rules := by
  rw [knowledgeBase, knowledgeBase, hs.entries?_eq, hs.entries?_eq, entries_eq hs, entries_eq hs, h]

end Enumeration

namespace Problem

variable {p : Problem} {e : Enumeration} {s : State}

/-! ## Problems under another enumeration -/

theorem under_goal (p : Problem) (e : Enumeration) : (p.under e).goal = p.goal :=
  rfl

theorem under_goals? (p : Problem) (e : Enumeration) : (p.under e).goals? = p.goals? :=
  rfl

theorem Proper.under (hp : p.Proper) (e : Enumeration) : (p.under e).Proper :=
  ⟨hp.kb, hp.actions, hp.goals⟩

/-- An enumeration lists every state that planning comes to as that of the problem does. -/
def ListsAlike (p : Problem) (e : Enumeration) : Prop :=
  ∀ s, Relation.ReflTransGen p.Explores p.initialState s → e.listing s = p.order.listing s

/-- Texts tell the facts of every state apart that planning comes to. -/
def TellsApart (p : Problem) : Prop :=
  ∀ s, Relation.ReflTransGen p.Explores p.initialState s →
    ∀ f ∈ s.facts, ∀ g ∈ s.facts, f.text = g.text → f = g

/-- **All enumerations list alike exactly when texts tell facts apart.** -/
theorem listsAlike_iff_tellsApart : (∀ e, p.ListsAlike e) ↔ p.TellsApart := by
  constructor
  · exact fun h s hs => (p.order.listing_eq_iff s).mp fun e => h e s hs
  · exact fun h e s hs => Enumeration.listing_eq_of_told (h s hs) e p.order

theorem Proper.tellsApart (hp : p.Proper) (hplain : p.isPlain) : p.TellsApart := fun _ hs =>
  (proper_of_explores hp hs hp.initialState).eq_of_text_eq
    (isPlain_of_explores hp hplain hs hp.initialState (hp.isPlain_initialState hplain))

/-- **Whether a state reaches the goal does not depend on how it is gone through.** -/
theorem Proper.reaches_under (hp : p.Proper) (e : Enumeration) (hs : s.Proper) :
    (p.under e).reaches s = p.reaches s := by
  unfold reaches
  rw [under_goal]
  cases hgoal : p.goal with
  | test passes => rfl
  | conjunction goals =>
      obtain ⟨b, hb, hiff⟩ := hs.holds_spec hp.kb.base.rules (hp.goals goals hgoal) e
      obtain ⟨b', hb', hiff'⟩ := hs.holds_spec hp.kb.base.rules (hp.goals goals hgoal) p.order
      obtain rfl : b = b' := Bool.eq_iff_iff.mpr (hiff.trans hiff'.symm)
      exact hb.trans hb'.symm

theorem successors_under (hs : s.Proper) (h : e.listing s = p.order.listing s) :
    (p.under e).successors s = p.successors s := by
  have hlisting : (p.under e).order.factsByPredicate s = p.order.factsByPredicate s :=
    (hs.factsByPredicate_eq e).trans ((congrArg _ h).trans (hs.factsByPredicate_eq p.order).symm)
  unfold successors applicableActions
  rw [hlisting]
  rfl

end Problem

/-! ## Relaxed graphs -/

namespace RelaxedGraph

variable {p : Problem} {e : Enumeration} {s : State} {g : RelaxedGraph}

theorem additions_under {layer : State} (hlayer : layer.Proper)
    (h : e.listing layer = p.order.listing layer) :
    additions (p.under e) layer = additions p layer := by
  have hlisting : (p.under e).order.factsByPredicate layer = p.order.factsByPredicate layer :=
    (hlayer.factsByPredicate_eq e).trans
      ((congrArg _ h).trans (hlayer.factsByPredicate_eq p.order).symm)
  unfold additions
  rw [hlisting]
  rfl

theorem matchesGoal_under {layer : State} (hlayer : layer.Proper) {goal : Atom}
    (hgoal : goal.isProper) :
    matchesGoal (p.under e) goal layer = matchesGoal p goal layer := by
  obtain ⟨b, hb⟩ := exists_matchesGoal (p := p.under e) hlayer hgoal
  obtain ⟨b', hb'⟩ := exists_matchesGoal (p := p) hlayer hgoal
  obtain rfl : b = b' :=
    Bool.eq_iff_iff.mpr
      ((matchesGoal_eq hlayer hgoal hb).trans (matchesGoal_eq hlayer hgoal hb').symm)
  exact hb.trans hb'.symm

theorem levelWhere_congr {passes passes' : State → Except Error Bool} {layers : List State}
    (h : ∀ layer ∈ layers, passes' layer = passes layer) (index : Nat) :
    levelWhere passes' index layers = levelWhere passes index layers := by
  induction layers generalizing index with
  | nil => rfl
  | cons layer rest ih =>
      obtain ⟨hlayer, hrest⟩ := List.forall_mem_cons.mp h
      rw [levelWhere, levelWhere, hlayer]
      simp only [ih hrest]

theorem Layered.expand_under (h : Layered p s g) (halike : p.ListsAlike e)
    (hs : Relation.ReflTransGen p.Explores p.initialState s) :
    RelaxedGraph.expand (p.under e) g = RelaxedGraph.expand p g := by
  unfold RelaxedGraph.expand
  rw [additions_under h.proper (halike _ (hs.trans h.explores_top))]

section

variable (hp : p.Proper) (halike : p.ListsAlike e)
  (hs : Relation.ReflTransGen p.Explores p.initialState s)

include hp halike hs

theorem Layered.expandUntil_under {α : Type} {found found' : RelaxedGraph → Except Error (Option α)}
    (hfound : ∀ g, Layered p s g → found' g = found g) (h : Layered p s g) (layers : Nat) :
    RelaxedGraph.expandUntil (p.under e) found' layers g =
      RelaxedGraph.expandUntil p found layers g := by
  induction layers generalizing g with
  | zero => rw [RelaxedGraph.expandUntil, RelaxedGraph.expandUntil, hfound g h]
  | succ layers ih =>
      rw [RelaxedGraph.expandUntil, RelaxedGraph.expandUntil, hfound g h, h.expand_under halike hs]
      rcases found g with _ | _ | _
      · rfl
      · dsimp only
        rcases hexpand : RelaxedGraph.expand p g with ⟨_ | _ | _, next⟩
        · rfl
        · rfl
        · exact ih (h.expand hp hexpand)
      · rfl

theorem Layered.goalLevelOf_under (h : Layered p s g) {goal : Atom} (hgoal : goal.isProper) :
    RelaxedGraph.goalLevelOf (p.under e) goal g = RelaxedGraph.goalLevelOf p goal g := by
  unfold RelaxedGraph.goalLevelOf
  rcases goal.requireKey with _ | _
  · rfl
  · refine if_congr Iff.rfl rfl (h.expandUntil_under hp halike hs (fun g hg => ?_) _)
    exact levelWhere_congr
      (fun layer hlayer => matchesGoal_under (hg.proper_layers layer hlayer) hgoal) 0

theorem Layered.goalLevelFrom_under {goals : List Atom} (h : Layered p s g)
    (hgoals : ∀ goal ∈ goals, goal.isProper) (worst : Nat) :
    goalLevelFrom (p.under e) worst goals g = goalLevelFrom p worst goals g := by
  induction goals generalizing worst g with
  | nil => rfl
  | cons goal goals ih =>
      obtain ⟨hgoal, hrest⟩ := List.forall_mem_cons.mp hgoals
      rw [RelaxedGraph.goalLevelFrom, RelaxedGraph.goalLevelFrom,
        h.goalLevelOf_under hp halike hs hgoal]
      rcases hlevel : RelaxedGraph.goalLevelOf p goal g with ⟨_ | _ | _, next⟩
      · rfl
      · rfl
      · exact ih (h.goalLevelOf_cases hp hgoal hlevel).1 hrest _

end

end RelaxedGraph

namespace Problem

variable {p : Problem} {e : Enumeration} {s : State}

/-- **The estimate of a state is the same** where states are listed alike. -/
theorem Proper.estimate_under (hp : p.Proper) (halike : p.ListsAlike e)
    (hs : Relation.ReflTransGen p.Explores p.initialState s) :
    (p.under e).estimate s = p.estimate s := by
  cases hgoal : p.goal with
  | test passes => rw [estimate, estimate, under_goal, hgoal]
  | conjunction goals =>
      have hlayered :=
        RelaxedGraph.layered_start (p := p) (proper_of_explores hp hs hp.initialState)
      have hlevel := hlayered.goalLevelFrom_under hp halike hs (hp.goals goals hgoal) 0
      rw [(hp.under e).estimate_eq hgoal, hp.estimate_eq hgoal]
      exact congrArg Prod.fst hlevel

theorem Proper.unreachable?_under (hp : p.Proper) (halike : p.ListsAlike e) {search : Search}
    (hs : Relation.ReflTransGen p.Explores p.initialState search.initialState) :
    (p.under e).unreachable? search = p.unreachable? search := by
  have hinitial := proper_of_explores hp hs hp.initialState
  unfold unreachable?
  rw [under_goals?]
  cases hgoals : p.goals? with
  | none => rfl
  | some goals =>
      have hproper := hp.goals goals (goals?_eq_some.mp hgoals)
      have hlevel :=
        (RelaxedGraph.layered_start (p := p) hinitial).goalLevelFrom_under hp halike hs hproper 0
      dsimp only
      rw [hp.reaches_under e hinitial, RelaxedGraph.start?_eq_ok hp,
        RelaxedGraph.start?_eq_ok (hp.under e), ok_bind, ok_bind, RelaxedGraph.goalLevel,
        RelaxedGraph.goalLevel, hlevel]

end Problem

/-! ## Searches -/

namespace Search

variable {M : Type} {p q : Problem} {policy policy' : Policy M} {S : State → Prop}
  {bound : Option Count} {verbose : Bool} {node : Node} {search : Search} {memory : M}
  {printed : String}

/-- About the states in `S`, what a search asks of a problem and of a policy has the answers that
another problem and another policy give; and it goes on to states in `S`. -/
structure Asks (p q : Problem) (policy policy' : Policy M) (S : State → Prop) : Prop where
  reaches : ∀ s, S s → q.reaches s = p.reaches s
  successors : ∀ s, S s → q.successors s = p.successors s
  closed : ∀ s l, S s → p.successors s = .ok l → ∀ successor ∈ l, S successor.2
  choose : ∀ memory frontier, (∀ n ∈ frontier, S n.state) →
    policy'.choose memory frontier = policy.choose memory frontier
  prune : ∀ memory node search, S node.state →
    policy'.prune memory node search = policy.prune memory node search

theorem Asks.addSuccessors (h : Asks p q policy policy' S) {parent : Node}
    {l : List (Action × State)} (hl : ∀ successor ∈ l, S successor.2) (fresh : List Node) :
    addSuccessors policy' verbose parent fresh search memory printed l
      = addSuccessors policy verbose parent fresh search memory printed l := by
  induction l generalizing fresh search memory printed with
  | nil => rfl
  | cons successor l ih =>
      obtain ⟨hs, hrest⟩ := List.forall_mem_cons.mp hl
      obtain ⟨a, s⟩ := successor
      rw [Search.addSuccessors, Search.addSuccessors]
      simp only [ih hrest]
      rw [h.prune _ ⟨s, parent.actions ++ [a], search.step⟩ _ hs]

theorem Asks.expandNode (h : Asks p q policy policy' S) (hnode : S node.state) :
    expandNode q policy' bound verbose node search memory printed
      = expandNode p policy bound verbose node search memory printed := by
  unfold Search.expandNode Search.expandBelow
  rw [h.reaches _ hnode, h.successors _ hnode]
  rcases p.reaches node.state with _ | _ | _
  · rfl
  · rcases atBound bound node with _ | _ | _
    · rfl
    · dsimp only
      simp only [Bool.false_eq_true, if_false]
      rcases hl : p.successors node.state with _ | l
      · rfl
      · dsimp only
        rw [h.addSuccessors (h.closed _ l hnode hl)]
    · rfl
  · rfl

/-- **A step asks about nodes on the frontier only.** -/
theorem Asks.advance (h : Asks p q policy policy' S)
    (hfrontier : ∀ n ∈ search.frontier, S n.state) :
    search.advance q policy' bound verbose memory =
      search.advance p policy bound verbose memory := by
  unfold Search.advance
  rw [h.choose memory search.frontier hfrontier]
  refine if_congr Iff.rfl rfl ?_
  dsimp only
  rcases (policy.choose memory search.frontier).answer with _ | index
  · rfl
  · dsimp only
    cases hnode : search.frontier[index]? with
    | none => rfl
    | some node =>
        dsimp only
        rcases search.step.next with _ | step
        · rfl
        · dsimp only
          split
          · rfl
          · exact h.expandNode (hfrontier node (List.mem_of_getElem? hnode))

/-- The nodes that a step leaves on the frontier have states in `S` again. -/
theorem Asks.frontier_advance (h : Asks p q policy policy' S)
    (hfrontier : ∀ n ∈ search.frontier, S n.state)
    (herror : (search.advance p policy bound verbose memory).error = none) :
    ∀ n ∈ (search.advance p policy bound verbose memory).search.frontier, S n.state := by
  rcases steps_of_advance rfl herror with ⟨-, hhalt, -⟩ | hsteps
  · rw [hhalt]
    exact hfrontier
  · generalize (search.advance p policy bound verbose memory).search = next at hsteps
    generalize (search.advance p policy bound verbose memory).memory = memory' at hsteps
    cases hsteps with
    | found htakes => exact fun n hn => hfrontier n (htakes.subset hn)
    | cut htakes => exact fun n hn => hfrontier n (htakes.subset hn)
    | expanded htakes _ _ _ hl hadds =>
        intro n hn
        rcases List.mem_append.mp hn with hn | hn
        · exact hfrontier n (htakes.subset hn)
        · obtain ⟨a, hmem, -⟩ := hadds.exists_of_mem hn
          exact h.closed _ _ (hfrontier _ htakes.mem) hl _ hmem

/-- **So does a run.** -/
theorem Asks.runFor (h : Asks p q policy policy' S) (hfrontier : ∀ n ∈ search.frontier, S n.state)
    (limits : TimedLimits) (rounds reading : Nat) (checkpoint : Option Search) :
    search.runFor q policy' bound verbose limits rounds reading memory printed checkpoint
      = search.runFor p policy bound verbose limits rounds reading memory printed checkpoint := by
  induction rounds generalizing reading search memory printed checkpoint with
  | zero => rfl
  | succ rounds ih =>
      rw [Search.runFor, Search.runFor, h.advance hfrontier]
      rcases search.step.below limits.maxNodes with _ | _ | _
      · rfl
      · rfl
      · refine if_congr Iff.rfl rfl ?_
        rcases stopCause? limits reading search with _ | _ | _
        · rfl
        · dsimp only
          cases herror : (search.advance p policy bound verbose memory).error with
          | some _ => rfl
          | none => exact ih (h.frontier_advance hfrontier herror) _ _
        · rfl

end Search

/-! ## Policies -/

theorem leastCost_congr {p q : Problem} {nodes : List Node}
    (h : ∀ n ∈ nodes, q.estimate n.state = p.estimate n.state) (place : Nat)
    (best : Option (Nat × Nat)) (known : Estimates) :
    leastCost q place best known nodes = leastCost p place best known nodes := by
  induction nodes generalizing place best known with
  | nil => rfl
  | cons node rest ih =>
      obtain ⟨hnode, hrest⟩ := List.forall_mem_cons.mp h
      have hget : Estimates.get q known node.state = Estimates.get p known node.state := by
        rw [Estimates.get, Estimates.get, hnode]
      rw [leastCost, leastCost, hget]
      simp only [ih hrest]

namespace Problem

variable {p : Problem} {e : Enumeration}

theorem Proper.asks_under (hp : p.Proper) (halike : p.ListsAlike e) {M : Type} (policy : Policy M) :
    Search.Asks p (p.under e) policy policy (Relation.ReflTransGen p.Explores p.initialState) where
  reaches _ hs := hp.reaches_under e (proper_of_explores hp hs hp.initialState)
  successors s hs := successors_under (proper_of_explores hp hs hp.initialState) (halike s hs)
  closed _ _ hs hl _ hmem := hs.tail (.successor hl hmem)
  choose _ _ _ := rfl
  prune _ _ _ _ := rfl

theorem Proper.asks_leastCost (hp : p.Proper) (halike : p.ListsAlike e) :
    Search.Asks p (p.under e) (.leastCost p) (.leastCost (p.under e))
      (Relation.ReflTransGen p.Explores p.initialState) := by
  refine ⟨(hp.asks_under halike (.leastCost p)).reaches,
    (hp.asks_under halike (.leastCost p)).successors, (hp.asks_under halike (.leastCost p)).closed,
    ?_, ?_⟩
  · exact fun known frontier hfrontier =>
      leastCost_congr (fun n hn => hp.estimate_under halike (hfrontier n hn)) 0 none known
  · intro known node _ hnode
    have hget : Estimates.get (p.under e) known node.state = Estimates.get p known node.state := by
      rw [Estimates.get, Estimates.get, hp.estimate_under halike hnode]
    simp only [Policy.leastCost, hget]

/-! ## Plannings -/

theorem Proper.planTimed_under (hp : p.Proper) (halike : p.ListsAlike e) {M : Type}
    {policy policy' : Policy M}
    (h : Search.Asks p (p.under e) policy policy' (Relation.ReflTransGen p.Explores p.initialState))
    {search : Search} (hinitial : search.initialState = p.initialState)
    (hfrontier : ∀ n ∈ search.frontier, Relation.ReflTransGen p.Explores p.initialState n.state)
    (request : TimedRequest) (memory : M) :
    (p.under e).planTimed request ⟨M, memory, policy'⟩ search =
      p.planTimed request ⟨M, memory, policy⟩ search := by
  unfold planTimed Search.runTimed
  rw [hp.unreachable?_under halike (hinitial ▸ .refl)]
  simp only [h.runFor hfrontier]

theorem Proper.planTimed_strategy_under (hp : p.Proper) (halike : p.ListsAlike e) {search : Search}
    (hinitial : search.initialState = p.initialState)
    (hfrontier : ∀ n ∈ search.frontier, Relation.ReflTransGen p.Explores p.initialState n.state)
    (request : TimedRequest) (name : StrategyName) (lines : List String) :
    (p.under e).planTimed request (name.strategy (p.under e) lines) search
      = p.planTimed request (name.strategy p lines) search := by
  cases name with
  | breadthFirst =>
      exact hp.planTimed_under halike (hp.asks_under halike .oldest) hinitial hfrontier request ()
  | depthFirst =>
      exact hp.planTimed_under halike (hp.asks_under halike .newest) hinitial hfrontier request ()
  | astar => exact hp.planTimed_under halike (hp.asks_leastCost halike) hinitial hfrontier request ∅
  | interactive =>
      exact hp.planTimed_under halike (hp.asks_under halike .ask) hinitial hfrontier request lines

theorem explores_start (p : Problem) : ∀ n ∈ (Search.start p.initialState).frontier,
    Relation.ReflTransGen p.Explores p.initialState n.state := by
  intro n hn
  obtain rfl := List.mem_singleton.mp hn
  exact .refl

/-- **When the order of the planner is canonical.**  A list of facts is sorted alike however it is
ordered exactly when texts tell its members apart, and closed plain facts are told apart.  So all
enumerations list alike the states that planning comes to exactly when texts tell the facts of each
of these apart, as they do in a plain problem.

Where an enumeration lists them as another does, it gives each of them the same knowledge base, the
same answer to the question for the goal, the same successors, the same layer above it and the same
estimate; and planning finds the same plan, or the same reason why there is none, with whichever
strategy. -/
theorem Proper.canonical_order (hp : p.Proper) :
    (∀ facts : List Atom,
      (∀ other : List Atom, other.Perm facts → sortedFacts other = sortedFacts facts) ↔
      ∀ f ∈ facts, ∀ g ∈ facts, f.text = g.text → f = g) ∧
    (∀ facts : List Atom, (∀ f ∈ facts, f.Closed ∧ f.isPlain) →
      ∀ other : List Atom, other.Perm facts → sortedFacts other = sortedFacts facts) ∧
    ((∀ e, p.ListsAlike e) ↔ p.TellsApart) ∧ (p.isPlain → p.TellsApart) ∧
    ∀ e, p.ListsAlike e →
      (∀ s, Relation.ReflTransGen p.Explores p.initialState s → e.listing s = p.order.listing s ∧
        (∀ rules, e.knowledgeBase s rules = p.order.knowledgeBase s rules) ∧
        (p.under e).reaches s = p.reaches s ∧ (p.under e).successors s = p.successors s ∧
        RelaxedGraph.additions (p.under e) s = RelaxedGraph.additions p s ∧
        (p.under e).estimate s = p.estimate s) ∧
      ∀ request, (∀ strategy, (p.under e).plan request strategy = p.plan request strategy) ∧
        ∀ (name : StrategyName) (lines : List String),
          (p.under e).plan request (name.strategy (p.under e) lines)
            = p.plan request (name.strategy p lines) := by
  refine ⟨fun facts => sortedByText_canonical_iff, ?_, listsAlike_iff_tellsApart, hp.tellsApart, ?_⟩
  · intro facts hfacts other hperm
    refine sortedByText_eq_of_perm hperm fun f hf g hg => ?_
    exact Atom.eq_of_text_eq (hfacts f hf).1 (hfacts g hg).1 (hfacts f hf).2 (hfacts g hg).2
  · intro e halike
    refine ⟨fun s hs => ?_, fun request => ⟨fun strategy => ?_, fun name lines => ?_⟩⟩
    · have hproper := proper_of_explores hp hs hp.initialState
      exact ⟨halike s hs, Enumeration.knowledgeBase_congr hproper (halike s hs),
        hp.reaches_under e hproper, successors_under hproper (halike s hs),
        RelaxedGraph.additions_under hproper (halike s hs), hp.estimate_under halike hs⟩
    · exact hp.planTimed_under halike (hp.asks_under halike strategy.policy) rfl (explores_start p)
        request.timed strategy.memory
    · exact hp.planTimed_strategy_under halike rfl (explores_start p) request.timed name lines

/-- Whether the cake is gone through from the front or from the back, the plan is the same. -/
theorem canonical_order_haveCake : ∃ p, Worlds.haveCake = .ok p ∧ p.Proper ∧ p.isPlain ∧
    p.ListsAlike p.order.reversed ∧
    (p.under p.order.reversed).plan ⟨.whole 3, .whole 100, .ok false, false⟩
        (StrategyName.astar.strategy (p.under p.order.reversed) [])
      = p.plan ⟨.whole 3, .whole 100, .ok false, false⟩ (StrategyName.astar.strategy p []) := by
  obtain ⟨p, hcake, hproper⟩ := exists_haveCake
  have hplain : (Worlds.haveCake.toOption.map isPlain) = some true := by decide +kernel
  rw [hcake] at hplain
  have hplain : p.isPlain := Option.some.inj hplain
  obtain ⟨-, -, halike, htold, hsame⟩ := hproper.canonical_order
  have hreversed := halike.mpr (htold hplain) p.order.reversed
  exact ⟨p, hcake, hproper, hplain, hreversed, ((hsame _ hreversed).2 _).2 .astar []⟩

end Problem
/-- A fact about two constants, the first of which has a comma in its name. -/
def commaFirst : Atom :=
  ⟨.text "Owns" (by decide),
    [.const ⟨"Ann, Bob", by decide, by decide⟩, .const ⟨"House", by decide, by decide⟩]⟩

/-- The fact that is printed alike, with the comma in the second name. -/
def commaSecond : Atom :=
  ⟨.text "Owns" (by decide),
    [.const ⟨"Ann", by decide, by decide⟩, .const ⟨"Bob, House", by decide, by decide⟩]⟩

theorem commaFirst_ne_commaSecond : commaFirst ≠ commaSecond := by
  intro heq
  have hnames : commaFirst.constants.map Constant.name =
      commaSecond.constants.map Constant.name := by rw [heq]
  exact absurd hnames (by decide)

/-- The order of the texts is not canonical for all sets of ground facts. -/
theorem not_forall_sortedFacts_eq : ¬∀ facts other :
    List Atom, (∀ f ∈ facts, f.Closed) → facts.Nodup →
    other.Perm facts → sortedFacts other = sortedFacts facts := by
  intro h
  have hclosed : ∀ f ∈ [commaFirst, commaSecond], f.toTerm.isProper ∧ f.toTerm.vars = [] := by
    decide
  have htexts : commaFirst.text = commaSecond.text := by decide
  have hnodup : [commaFirst, commaSecond].Nodup := by simpa using commaFirst_ne_commaSecond
  have htold := sortedByText_canonical_iff.mp fun other hperm => h _ other hclosed hnodup hperm
  exact commaFirst_ne_commaSecond (htold commaFirst (by simp) commaSecond (by simp) htexts)

end HornPlan
