import HornPlan.Proofs.Accounts
import HornPlan.Proofs.Resumption

/-!
# How many nodes A\* expands

A\* does not always expand fewer nodes than breadth first.  It keeps the nodes that it has queued
for a state before a shorter path to it was found, and among nodes of one cost it takes the first,
so that it may come upon the goal last of all nodes that are as deep.  Both kinds of expansion are
*surplus*: of a state that was expanded before, or of a node as deep as the plan is long.

Apart from them A\* expands no more nodes than breadth first
(`Problem.Proper.nodesExpanded_astar_le`).  For each of its other expansions is of another state, at
a depth less than the length of the plan (`Problem.Proper.depth_le_of_takes`), and breadth first
takes every state of such a depth before it comes upon the goal (`Balanced.exists_turn`).
-/

namespace HornPlan

namespace Search

variable {p : Problem} {M : Type} {policy : Policy M} {b : Nat} {verbose : Bool}
  {search last final : Search} {memory memory' first : M} {turns : List Turn}

/-! ## The nodes that are taken -/

/-- The nodes that so many steps of a search take, in order. -/
def nodesTaken (p : Problem) (policy : Policy M) (bound : Option Count) (verbose : Bool) :
    (steps : Nat) → Search → M → List Node
  | 0, _, _ => []
  | steps + 1, search, memory =>
    let outcome := search.advance p policy bound verbose memory
    (taken? policy memory search.frontier).toList
      ++ nodesTaken p policy bound verbose steps outcome.search outcome.memory

/-- How many of the nodes are as deep as a plan is long, or hold a state that was expanded
before. -/
def surplus (length : Nat) : (expanded : List State) → List Node → Nat
  | _, [] => 0
  | expanded, n :: rest =>
    (if n.depth = length ∨ expanded.contains n.state then 1 else 0) +
      surplus length (n.state :: expanded) rest

/-- **The nodes that are not surplus hold different states.**  So there are no more of them than
there are states for them to hold. -/
theorem length_le_add_surplus {length : Nat} (expanded states : List State) {nodes : List Node}
    (h : ∀ n ∈ nodes, n.depth ≠ length → expanded.contains n.state = false → n.state ∈ states) :
    nodes.length ≤ states.length + surplus length expanded nodes := by
  classical
  induction nodes generalizing expanded states with
  | nil => exact Nat.zero_le _
  | cons n rest ih =>
      obtain ⟨hn, hrest⟩ := List.forall_mem_cons.mp h
      rw [List.length_cons, surplus]
      by_cases hsurplus : n.depth = length ∨ expanded.contains n.state
      · have hle := ih (n.state :: expanded) states fun m hm hdepth hnew => by
          rw [List.contains_cons, Bool.or_eq_false_iff] at hnew
          exact hrest m hm hdepth hnew.2
        rw [if_pos hsurplus]
        omega
      · rw [not_or, Bool.not_eq_true] at hsurplus
        have hmem : n.state ∈ states := hn hsurplus.1 hsurplus.2
        -- the state of this node is no longer free for the others
        have hle :=
          ih (n.state :: expanded) (states.filter (· ≠ n.state)) fun m hm hdepth hnew => by
          rw [List.contains_cons, Bool.or_eq_false_iff] at hnew
          have hne : m.state ≠ n.state := fun heq => by
            rw [heq, BEq.rfl] at hnew
            cases hnew.1
          exact List.mem_filter.mpr ⟨hrest m hm hdepth hnew.2, decide_eq_true hne⟩
        have hlt : (states.filter (· ≠ n.state)).length < states.length :=
          List.length_filter_lt_length_iff_exists.mpr ⟨n.state, hmem, by simp⟩
        rw [if_neg (by rw [not_or, Bool.not_eq_true]; exact hsurplus)]
        omega

/-! ## Turns of a search that finds the goal -/

theorem Finds.exists_takes (h : Finds p policy search memory last) : ∃ goal rest memory',
    Takes policy memory search.frontier goal rest memory' ∧ p.reaches goal.state = .ok true ∧
      last.solution = some goal := by
  obtain ⟨htakes, hreaches⟩ := h
  exact ⟨_, _, _, htakes, hreaches, rfl⟩

theorem Continues.exists_turn {next : Search}
    (h : Continues p policy b (search, memory) (next, memory')) :
    ∃ turn rest taken, turn? policy memory search next = some turn ∧
      Takes policy memory search.frontier turn.node rest taken ∧
      p.reaches turn.node.state = .ok false := by
  have hturn : ∀ {node rest taken}, Takes policy memory search.frontier node rest taken →
      turn? policy memory search next = some ⟨node, next.frontier.drop (search.frontier.length - 1),
        next.seen⟩ := by
    intro node rest taken htakes
    rw [turn?, htakes.taken?_eq, Option.map_some]
  cases h with
  | cut htakes hreaches _ => exact ⟨_, _, _, hturn htakes, htakes, hreaches⟩
  | expanded htakes hreaches _ _ _ => exact ⟨_, _, _, hturn htakes, htakes, hreaches⟩

theorem Continues.running {next : Search}
    (h : Continues p policy b (search, memory) (next, memory')) (hnext : next.Running) :
    search.Running := by
  cases h with
  | cut => exact ⟨hnext.haltFlag, hnext.haltReason, hnext.solution⟩
  | expanded => exact ⟨hnext.haltFlag, hnext.haltReason, hnext.solution⟩

/-- **How a search comes upon a goal node**: it takes the node after some turns, none of which halts
it. -/
structure FindsAfter (p : Problem) (policy : Policy M) (b : Nat) (verbose : Bool) (first : M)
    (turns : List Turn) (goal : Node) : Prop where
  taken : ∃ last memory rest memory', Logged p policy (some b) verbose first turns last memory ∧
    last.Running ∧
    Takes policy memory last.frontier goal rest memory'
  reaches : p.reaches goal.state = .ok true

/-- A run that ends with a goal node has found it after some turns, as many as its steps less
one. -/
theorem Concludes.exists_turns {error : Option Error} {goal : Node}
    (h : Concludes p policy (some (.whole b)) verbose search memory final error)
    (herror : error = none) (hsolution : final.solution = some goal) (hrunning : search.Running)
    (hlogged : Logged p policy (some b) verbose first turns search memory)
    (hstep : search.step = .whole turns.length) :
    ∃ later, FindsAfter p policy b verbose first (turns ++ later) goal ∧
      final.step = .whole ((turns ++ later).length + 1) ∧
      nodesTaken p policy (some (.whole b)) verbose (later.length + 1) search memory
        = later.map Turn.node ++ [goal] := by
  induction h generalizing turns with
  | halted hhalted => cases hhalted.symm.trans hrunning.halted
  | failed => cases herror
  | @step search final memory outcome error _ hadvance hnone hrest ih =>
      have hcounted : search.frontier ≠ [] → outcome.search.step = .whole (turns.length + 1) := by
        intro hnonempty
        have hnext := next_of_advance hadvance hnonempty hnone
        rw [hstep] at hnext
        exact (Except.ok.inj hnext).symm
      -- the step empties the frontier, finds the goal or takes one more turn
      rcases advance_cases hadvance hnone with ⟨-, hhalt⟩ | hfinds | hcontinues
      · obtain ⟨rfl, -⟩ := hrest.of_halted (by rw [hhalt]; rfl)
        rw [hhalt] at hsolution
        cases hrunning.solution.symm.trans hsolution
      · obtain ⟨rfl, -⟩ := hrest.of_halted hfinds.halted
        obtain ⟨node, rest, memory', htakes, hreaches, hfound⟩ := hfinds.exists_takes
        obtain rfl := Option.some.inj (hfound.symm.trans hsolution)
        refine ⟨[], ?_⟩
        rw [List.append_nil]
        refine ⟨⟨⟨search, memory, rest, memory', hlogged, hrunning, htakes⟩, hreaches⟩,
          hcounted (List.ne_nil_of_mem htakes.mem), ?_⟩
        rw [List.length_nil, nodesTaken, nodesTaken, htakes.taken?_eq]
        rfl
      · obtain ⟨turn, rest, taken, hturn, htakes, -⟩ := hcontinues.exists_turn
        have hlogged' := hlogged.step hadvance hnone
        rw [hturn, Option.toList_some] at hlogged'
        obtain ⟨later, hafter, hfinal, htaken⟩ :=
          ih herror hsolution (hrunning.continues hcontinues) hlogged'
          (by rw [hcounted (List.ne_nil_of_mem htakes.mem), List.length_append]; rfl)
        rw [List.append_assoc, List.singleton_append] at hafter hfinal
        refine ⟨turn :: later, hafter, hfinal, ?_⟩
        rw [List.length_cons, nodesTaken, htakes.taken?_eq, hadvance, htaken]
        rfl

/-- At every turn a node was taken that is not the goal, from a search that the run had come to. -/
theorem Logged.turns_spec (h : Logged p policy (some b) verbose first turns last memory')
    (hrunning : last.Running) :
    Relation.ReflTransGen (Continues p policy b) (Search.start p.initialState, first)
      (last, memory') ∧
      ∀ turn ∈ turns, p.reaches turn.node.state = .ok false ∧ ∃ search memory rest taken,
        Relation.ReflTransGen (Continues p policy b) (Search.start p.initialState, first)
        (search, memory) ∧
        Takes policy memory search.frontier turn.node rest taken := by
  induction h with
  | start => exact ⟨.refl, fun _ h => absurd h List.not_mem_nil⟩
  | @step turns search memory' outcome _ hadvance hnone ih =>
      rcases advance_cases hadvance hnone with ⟨-, hhalt⟩ | hfinds | hcontinues
      · rw [hhalt] at hrunning
        cases hrunning.haltFlag
      · cases hfinds.halted.symm.trans hrunning.halted
      · obtain ⟨hsteps, hturns⟩ := ih (hcontinues.running hrunning)
        obtain ⟨turn, rest, taken, hturn, htakes, hreaches⟩ := hcontinues.exists_turn
        rw [hturn, Option.toList_some]
        exact ⟨hsteps.tail hcontinues, List.forall_mem_append.mpr ⟨hturns,
          List.forall_mem_singleton.mpr ⟨hreaches, search, memory', rest, taken, hsteps, htakes⟩⟩⟩

/-! ## What breadth first has taken -/

/-- **On a path that is shorter than the nodes that wait are deep, every state has been taken**,
where no node is discarded. -/
theorem Balanced.exists_turn (h : Balanced p (some b) turns last)
    (hmissed : ∀ turn ∈ turns, p.reaches turn.node.state = .ok false) {limit : Nat}
    (hlimit : limit ≤ b) (hfrontier : ∀ n ∈ last.frontier, limit ≤ n.depth) {s t : State}
    {as : List Action} {d : Nat} (hpath : p.Leads s as t) (hs : SeenAt last.seen s d)
    (hlength : d + as.length < limit) :
    ∃ turn ∈ turns, turn.node.state = t := by
  have htaken : ∀ n ∈ queuedIn p.initialState turns, n.depth < limit →
      ∃ turn ∈ turns, turn.node = n := by
    intro n hn hlt
    rcases List.mem_append.mp (h.perm.mem_iff.mp hn) with hn | hn
    · exact List.mem_map.mp hn
    · exact absurd (hfrontier n hn) (not_le.mpr hlt)
  have hsettled : ∀ n ∈ queuedIn p.initialState turns, n.depth < limit →
      p.reaches n.state = .ok false ∧ Settled p (some b) last.seen n := by
    intro n hn hlt
    obtain ⟨turn, hturn, rfl⟩ := htaken n hn hlt
    exact ⟨hmissed turn hturn, (h.settled turn hturn).lowers (h.lowers turn hturn)⟩
  have hbound : ∀ c ∈ some (b : Int), (limit : Int) ≤ c := by
    rintro _ ⟨⟩
    omega
  -- the end of the path is noted with a depth that no node on the frontier is left with
  obtain ⟨e, he, ht⟩ := h.tracks.seenAt_of_leads hbound hsettled hpath hs hlength.le
  obtain ⟨n, hn, hstate, rfl⟩ := h.tracks.origin t e ht
  obtain ⟨turn, hturn, rfl⟩ := htaken n hn (by omega)
  exact ⟨turn, hturn, hstate⟩

end Search

namespace Problem

variable {p : Problem} {strategy : Strategy} {b : Nat} {maxNodes maxNodes' : Int}
  {outOfTime outOfTime' verbose verbose' : Bool} {lines lines' : List String}

/-- The turns after which a plan was found. -/
theorem exists_turns_of_plan_found {plan : Plan}
    (h : (p.plan ⟨.whole b, .whole maxNodes, .ok outOfTime, verbose⟩ strategy).answer =
      .ok (.found plan)) :
    ∃ turns goal, Search.FindsAfter p strategy.policy b verbose strategy.memory turns goal ∧
      goal.actions = plan.actions ∧ plan.nodesExpanded = .whole (turns.length + 1) ∧
      Search.nodesTaken p strategy.policy (some (.whole b)) verbose (turns.length + 1)
      (.start p.initialState)
        strategy.memory = turns.map Search.Turn.node ++ [goal] := by
  rcases hunreachable : p.unreachable? (.start p.initialState) with e | _ | layers
  · cases (answer_of_unreachable?_eq_error hunreachable).symm.trans h
  · obtain ⟨final, error, hconcludes, hanswer⟩ :=
      (p.undisturbed_of_found h).exists_concludes hunreachable
    rw [h] at hanswer
    cases error with
    | some e => cases hanswer
    | none =>
        obtain ⟨goal, hsolution, hplan⟩ := Search.exists_of_result_eq_found hanswer.symm
        obtain ⟨turns, hafter, hstep, htaken⟩ := hconcludes.exists_turns rfl hsolution
          (Search.running_start _) .start rfl
        obtain ⟨ss, -, hplan⟩ := bind_eq_ok.mp hplan
        obtain rfl := Except.ok.inj hplan
        exact ⟨turns, goal, hafter, rfl, hstep, htaken⟩
  · cases (answer_of_unreachable?_eq_some hunreachable).symm.trans h

/-- **A strategy that takes the cheapest nodes takes none that is deeper than a path to the goal is
long.** -/
theorem Proper.depth_le_of_takes (hp : p.Proper) {Valid : strategy.Memory → Prop}
    (hpolicy : Search.Admissible p strategy.policy Valid) (hmemory : Valid strategy.memory)
    (hcheapest : TakesCheapest p b strategy) {last : Search} {memory memory' : strategy.Memory}
    {node : Node} {rest : List Node}
    (hsteps : Relation.ReflTransGen (Search.Continues p strategy.policy b)
      (.start p.initialState, strategy.memory) (last, memory))
    (htakes : Search.Takes strategy.policy memory last.frontier node rest memory')
    {as : List Action} {t : State} (hleads : p.Leads p.initialState as t) (hlength : as.length ≤ b)
    (hgoal : p.reaches t = .ok true) :
    node.depth ≤ as.length := by
  have hcovered := Search.covered_of_continues hp hpolicy hmemory hsteps
  obtain ⟨m, hm, rest, hrest, hshorter⟩ :=
    hcovered.exists_waiting hleads hcovered.start (by omega) hgoal
  have hcost := hcheapest hsteps htakes m hm rest t hrest hgoal
  omega

/-- A\* takes nodes at the ends of paths, none of which is longer than the one to the goal. -/
theorem Proper.depth_le_of_findsAfter (hp : p.Proper) {turns : List Search.Turn} {goal : Node}
    (h : Search.FindsAfter p (StrategyName.astar.strategy p lines).policy b verbose
      (StrategyName.astar.strategy p lines).memory turns goal) :
    ∀ turn ∈ turns, p.Leads p.initialState turn.node.actions turn.node.state ∧
    turn.node.depth ≤ goal.depth := by
  obtain ⟨⟨last, _, _, _, hlogged, hrunning, htakes⟩, hreaches⟩ := h
  obtain ⟨hsteps, hturns⟩ := hlogged.turns_spec hrunning
  obtain ⟨hsound, -⟩ := Search.sound_of_continues hsteps
  intro turn hturn
  obtain ⟨-, search, _, _, _, hreached, htaken⟩ := hturns turn hturn
  obtain ⟨hsound', -⟩ := Search.sound_of_continues hreached
  exact ⟨hsound'.leads turn.node htaken.mem,
    hp.depth_le_of_takes hp.admissible_leastCost Estimates.valid_empty
    (hp.takesCheapest_astar lines) hreached htaken (hsound.leads goal htakes.mem)
    (hsound.depth_le goal htakes.mem)
    hreaches⟩

/-- Breadth first takes the ends of all paths that are shorter than the one to the goal, before it
takes the goal. -/
theorem Proper.exists_turn_of_leads (hp : p.Proper) {turns : List Search.Turn} {goal : Node}
    (h : Search.FindsAfter p (StrategyName.breadthFirst.strategy p lines).policy b verbose
      (StrategyName.breadthFirst.strategy p lines).memory turns goal) {as : List Action} {t : State}
    (hleads : p.Leads p.initialState as t) (hlength : as.length < goal.depth) :
    ∃ turn ∈ turns, turn.node.state = t := by
  obtain ⟨⟨last, _, _, _, hlogged, hrunning, htakes⟩, -⟩ := h
  obtain ⟨hsteps, hturns⟩ := hlogged.turns_spec hrunning
  obtain ⟨hsound, -⟩ := Search.sound_of_continues hsteps
  have hordered : Search.Ordered last.frontier :=
    Search.invariant_of_continues (fun search _ => Search.Ordered search.frontier)
      (fun h hstep => h.continues hstep) hsteps (Search.ordered_start _)
  have hcovered := Search.covered_of_continues hp (Search.admissible_of_keepAll rfl) trivial hsteps
  exact (hlogged.balanced hp rfl).exists_turn (fun turn h => (hturns turn h).1)
    (hsound.depth_le goal htakes.mem) (fun n hn => hordered.depth_le htakes hn) hleads
    hcovered.start (by rwa [Nat.zero_add])

/-- **A\* expands no more nodes than breadth first, apart from those that are surplus**: nodes of a
state that it has expanded before, and nodes as deep as the plan is long that are not the goal. -/
theorem Proper.nodesExpanded_astar_le (hp : p.Proper) (bound : Int) {plan plan' : Plan}
    (hastar : (p.plan ⟨.whole bound, .whole maxNodes, .ok outOfTime, verbose⟩
      (StrategyName.astar.strategy p lines)).answer = .ok (.found plan))
    (hbreadthFirst : (p.plan ⟨.whole bound, .whole maxNodes', .ok outOfTime', verbose'⟩
      (StrategyName.breadthFirst.strategy p lines')).answer = .ok (.found plan')) :
    ∃ (nodes : List Node) (goal : Node) (others : Nat),
      Search.nodesTaken p (Policy.leastCost p) (some (.whole bound)) verbose (nodes.length + 1)
        (.start p.initialState) ∅ = nodes ++ [goal] ∧
      goal.actions = plan.actions ∧ plan.nodesExpanded = .whole (nodes.length + 1) ∧
      plan'.nodesExpanded = .whole others ∧
      nodes.length + 1 ≤ others + Search.surplus plan.actions.length [] nodes := by
  by_cases hnegative : bound < 0
  · cases (answer_of_negative hnegative).symm.trans hastar
  obtain ⟨b, rfl⟩ := Int.eq_ofNat_of_zero_le (not_lt.mp hnegative)
  obtain ⟨hlength, -⟩ := hp.shortest_of_found hastar hbreadthFirst
  obtain ⟨turns, goal, hfinds, hactions, hcount, htaken⟩ := exists_turns_of_plan_found hastar
  obtain ⟨turns', goal', hfinds', hactions', hcount', -⟩ := exists_turns_of_plan_found hbreadthFirst
  have hgoal : goal.depth = plan.actions.length := congrArg List.length hactions
  have hgoal' : goal'.depth = plan.actions.length :=
    (congrArg List.length hactions').trans hlength.symm
  -- what A* takes above the goal lies on a path that breadth first has followed as well
  have hcovered : ∀ n ∈ turns.map Search.Turn.node, n.depth ≠ plan.actions.length →
      n.state ∈ turns'.map fun turn => turn.node.state := by
    intro n hn hdepth
    obtain ⟨turn, hturn, rfl⟩ := List.mem_map.mp hn
    obtain ⟨hleads, hshallow⟩ := hp.depth_le_of_findsAfter hfinds turn hturn
    have hshorter : turn.node.depth < goal'.depth := by omega
    exact List.mem_map.mpr (hp.exists_turn_of_leads hfinds' hleads hshorter)
  have hle := Search.length_le_add_surplus [] _ fun n hn hdepth _ => hcovered n hn hdepth
  rw [List.length_map, List.length_map] at hle
  refine ⟨turns.map Search.Turn.node, goal, turns'.length + 1, ?_, hactions,
    ?_, by exact_mod_cast hcount', ?_⟩
  · rw [List.length_map]
    exact htaken
  · rw [List.length_map]
    exact hcount
  · rw [List.length_map]
    omega

/-- Going one way, from one place to another.  Places and facts are told by letters. -/
def way (name origin destination : String) (adds deletes : List String) : Except Error Action :=
  Worlds.action name [] [(origin, [])] [] ((destination :: adds).map (·, []))
    ((origin :: deletes).map (·, [])) []

/-- Out in the cold.  Being warm (`W`) is a fact, being fed (`F`) follows from being in the house
(`H`).  The way there is from the street (`S`) along the beach (`A`) to the pier (`P`) and the boat
(`O`).  In the hut (`B`) and on the ridge (`R`) it is warm, but that way to the pier is longer, and
the caves behind (`C` and `D`) lead nowhere. -/
def outInTheCold : Except Error Problem := do
  let ways ← [way "Descend" "S" "A" [] [], way "Climb" "S" "B" ["W"] [], way "Stroll" "B" "R" [] [],
    way "Wade" "A" "P" [] [], way "Slide" "R" "P" [] ["W"], way "Enter" "R" "C" [] [],
    way "Explore" "C" "D" [] [], way "Embark" "P" "O" ["W"] [], way "Land" "O" "H" [] []].mapM id
  make? (.str "out_in_the_cold")
    ((← Worlds.facts [("S", [])]) ++ [← Worlds.rule [("H", [])] ("F", [])])
    (ways.map .inl) (← Worlds.goal [("W", []), ("F", [])])

/-- How many nodes a strategy expands until it finds a plan. -/
def nodesOf (name : StrategyName) (p : Problem) : Option Int :=
  (p.plan ⟨4, 100, .ok false, false⟩ (name.strategy p [])).answer.toOption.bind fun result =>
    result.plan?.bind fun plan => plan.nodesExpanded.toData.int?

theorem exists_of_nodesOf {name : StrategyName} {n : Int} (h : p.nodesOf name = some n) : ∃ plan,
    (p.plan ⟨4, 100, .ok false, false⟩ (name.strategy p [])).answer = .ok (.found plan) ∧
      plan.nodesExpanded = .whole n := by
  obtain ⟨result, hresult, h⟩ := Option.bind_eq_some_iff.mp h
  obtain ⟨plan, hplan, h⟩ := Option.bind_eq_some_iff.mp h
  refine ⟨plan, PlanResult.eq_found_of_plan?_eq (by rw [hresult]; exact hplan), ?_⟩
  cases hcount : plan.nodesExpanded with
  | whole m =>
      rw [hcount] at h
      rw [Option.some.inj h]
  | foreign value hvalue =>
      rw [hcount] at h
      cases hvalue.symm.trans h

theorem nodesOf_breadthFirst_outInTheCold :
    outInTheCold.toOption.bind (nodesOf .breadthFirst) = some 8 := by
  decide +kernel

theorem nodesOf_astar_outInTheCold : outInTheCold.toOption.bind (nodesOf .astar) = some 10 := by
  decide +kernel

/-- A\* expands the pier for a second time, and the second cave, before it comes to the house. -/
theorem exists_outInTheCold : ∃ p goals plan plan', outInTheCold = .ok p ∧ p.Proper ∧
    p.goal = .conjunction goals ∧
    (p.plan ⟨4, 100, .ok false, false⟩ (StrategyName.astar.strategy p [])).answer =
      .ok (.found plan) ∧
    (p.plan ⟨4, 100, .ok false, false⟩ (StrategyName.breadthFirst.strategy p [])).answer =
      .ok (.found plan') ∧
    plan.nodesExpanded = .whole 10 ∧ plan'.nodesExpanded = .whole 8 := by
  obtain ⟨p, hcold, hproper⟩ : ∃ p, outInTheCold = .ok p ∧ p.Proper :=
    exists_ok_of_isProper (by decide +kernel)
  have hgoals : (outInTheCold.toOption.bind goals?).isSome := by decide +kernel
  have hastar := nodesOf_astar_outInTheCold
  have hbreadthFirst := nodesOf_breadthFirst_outInTheCold
  rw [hcold] at hgoals hastar hbreadthFirst
  obtain ⟨goals, hgoals⟩ := Option.isSome_iff_exists.mp hgoals
  obtain ⟨plan, hplan, hcount⟩ := exists_of_nodesOf hastar
  obtain ⟨plan', hplan', hcount'⟩ := exists_of_nodesOf hbreadthFirst
  exact ⟨p, goals, plan, plan', hcold, hproper, goals?_eq_some.mp hgoals, hplan, hplan',
    hcount, hcount'⟩

/-- Out in the cold two of the expansions are surplus. -/
theorem nodesExpanded_astar_le_outInTheCold :
    ∃ p plan plan' nodes goal, outInTheCold = .ok p ∧ p.Proper ∧
    (p.plan ⟨4, 100, .ok false, false⟩ (StrategyName.astar.strategy p [])).answer =
      .ok (.found plan) ∧
    (p.plan ⟨4, 100, .ok false, false⟩ (StrategyName.breadthFirst.strategy p [])).answer =
      .ok (.found plan') ∧
    plan'.nodesExpanded = .whole 8 ∧
    Search.nodesTaken p (Policy.leastCost p)
      (some (.whole 4)) false 10 (.start p.initialState) ∅ = nodes ++ [goal] ∧
    goal.actions = plan.actions ∧ 2 ≤ Search.surplus plan.actions.length [] nodes := by
  obtain ⟨p, goals, plan, plan', hcold, hproper, -, hplan, hplan', hcount, hcount'⟩ :=
    exists_outInTheCold
  obtain ⟨nodes, goal, others, htaken, hactions, hnodes, hothers, hle⟩ :=
    hproper.nodesExpanded_astar_le 4 hplan hplan'
  have hlength : (10 : Int) = nodes.length + 1 := Count.whole.inj (hcount.symm.trans hnodes)
  have hbound : (8 : Int) = others := Count.whole.inj (hcount'.symm.trans hothers)
  rw [show nodes.length + 1 = 10 by omega] at htaken
  exact ⟨p, plan, plan', nodes, goal, hcold, hproper, hplan, hplan', hcount', htaken,
    hactions, by omega⟩

/-- A\* may expand more nodes than breadth first. -/
theorem not_forall_nodesExpanded_le : ¬∀ (p : Problem) (goals : List Atom) (bound maxNodes : Int)
    (plan plan' : Plan) (m n : Int), p.Proper → p.goal = .conjunction goals →
    (p.plan ⟨.whole bound, .whole maxNodes, .ok false, false⟩
      (StrategyName.astar.strategy p [])).answer
      = .ok (.found plan) →
    (p.plan ⟨.whole bound, .whole maxNodes, .ok false, false⟩
      (StrategyName.breadthFirst.strategy p [])).answer
      = .ok (.found plan') →
    plan.nodesExpanded = .whole m → plan'.nodesExpanded = .whole n → m ≤ n := by
  intro h
  obtain ⟨p, goals, plan, plan', -, hproper, hgoals, hplan, hplan', hcount, hcount'⟩ :=
    exists_outInTheCold
  exact absurd (h p goals 4 100 plan plan' 10 8 hproper hgoals hplan hplan' hcount hcount')
    (by decide)

end Problem

end HornPlan
