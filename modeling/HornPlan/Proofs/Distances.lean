import HornPlan.Proofs.Accounts
import HornPlan.Proofs.Resumption

/-!
# Breadth first notes distances

A search that takes its oldest node goes out from its initial state level by level, up to the step
that halts it (`BreadthFirst`).  Its nodes are taken in the order in which they were queued, the
least deep first; no state is queued twice; and the depth noted with a state is its distance, the
least number of actions that lead there (`BreadthFirst.notes_distances`).

## Strategy

The shape of the queue and the distances depend on each other, so that one invariant holds both of
them (`Measured`).

* **The queue.**  The nodes ever queued are those taken and those that wait, in this order, and
  their depths never decrease.  None of them is more than one deeper than the next node to be taken
  (`Measured.depth_le_succ`), and so the children of that node may take their places at the end.
* **The distances.**  As long as a path is no longer than the next node is deep, its actions lead on
  from nodes that have been taken and expanded, so that the state at its end is noted with at most
  the length of the path (`Tracks.seenAt_of_leads`).  A child is queued only where nothing so small
  is noted, and so no such path leads to its state (`Measured.isDistance_child`).
* **The bound.**  Where a child is queued, its parent stands above the bound, and with it all nodes
  that are less deep.  None of them was left unexpanded.
* **Repetitions.**  Nodes of one state have smaller and smaller depths (`Tracks.fading`).  Where
  depths never decrease, there is only one of them (`Measured.nodup`).
-/

namespace HornPlan

/-! ## Distances -/

/-- The least number of actions that lead from one state to another. -/
def Problem.IsDistance (p : Problem) (s t : State) (d : Nat) : Prop :=
  IsLeast {n | ∃ as, as.length = n ∧ p.Leads s as t} d

theorem Problem.isDistance_self (p : Problem) (s : State) : p.IsDistance s s 0 :=
  ⟨⟨[], rfl, .nil s⟩, fun _ _ => Nat.zero_le _⟩

namespace Search

variable {p : Problem} {bound : Option Int} {verbose : Bool} {s : State} {turns : List Turn}
  {search final : Search} {memory memory' : Unit} {node n : Node} {rest new : List Node}
  {seen' : List (State × Count)} {outcome : Outcome Unit}

/-! ## Searches that take the oldest node -/

/-- The turns of a search that was begun from a state and takes the oldest node, and what it has
come to.  No step has failed, none was taken after the search had halted, and any of them may have
been told to print. -/
inductive BreadthFirst (p : Problem) (bound : Option Int) (s : State) : List Turn → Search → Prop
  | start : BreadthFirst p bound s [] (start s)
  | step {turns : List Turn} {search : Search} {verbose : Bool} {outcome : Outcome Unit}
      (h : BreadthFirst p bound s turns search) (hrunning : search.halted = false)
      (hstep : search.advance p Policy.oldest (bound.map .whole) verbose () = outcome)
      (herror : outcome.error = none) :
      BreadthFirst p bound s (turns ++ (turn? Policy.oldest () search outcome.search).toList)
      outcome.search

/-- A search without nodes is at rest after a step that takes none. -/
theorem BreadthFirst.atRest (h : BreadthFirst p bound s turns search) :
    BreadthFirst p bound s turns search.atRest := by
  cases hhalted : search.halted with
  | true => rwa [atRest_of_halted hhalted]
  | false =>
      by_cases hempty : search.frontier = []
      · have hstep : search.advance p Policy.oldest (bound.map .whole) false ()
            = ⟨search.halt .frontierEmpty, (), "", none⟩ := by
          rw [Search.advance, hempty]
          rfl
        have hrest : search.atRest = search.halt .frontierEmpty := by
          rw [Search.atRest, hhalted, hempty]
          rfl
        have hhalt := h.step hhalted hstep rfl
        rwa [turn?_eq_none hempty, Option.toList_none, List.append_nil, ← hrest] at hhalt
      · rwa [atRest_of_ne_nil hempty]

/-- **A run that takes the oldest nodes is such a search**, if no step of it fails. -/
theorem RunsTo.breadthFirst {limit : Int} {error : Option Error}
    (hruns : RunsTo p Policy.oldest (bound.map .whole) verbose limit search memory final error)
    (herror : error = none) (h : BreadthFirst p bound s turns search) :
    ∃ later, BreadthFirst p bound s (turns ++ later) final := by
  induction hruns generalizing turns with
  | rests => exact ⟨[], by rw [List.append_nil]; exact h.atRest⟩
  | failed => cases herror
  | step hrests hstep hnone _ ih =>
      have hrunning := Bool.eq_false_iff.mpr fun hhalted => hrests (Or.inl hhalted)
      obtain ⟨later, hlater⟩ := ih herror (h.step hrunning hstep hnone)
      exact ⟨_, by rwa [← List.append_assoc]⟩

/-! ## The invariant -/

/-- What holds at every point of a search that takes the oldest node. -/
structure Measured (p : Problem) (bound : Option Int) (s : State) (turns : List Turn)
    (search : Search) : Prop where
  storable : search.Storable
  tidy : Tidy search.seen
  tracks : Tracks (queuedIn s turns) search.seen
  start : SeenAt search.seen s 0
  queue : queuedIn s turns = turns.map Turn.node ++ search.frontier
  window : Ordered search.frontier
  ascending : (queuedIn s turns).Pairwise fun m n => m.depth ≤ n.depth
  distance : ∀ n ∈ queuedIn s turns, p.IsDistance s n.state n.depth
  settled : search.halted = false →
    ∀ turn ∈ turns, p.reaches turn.node.state = .ok false ∧ Settled p bound search.seen turn.node

theorem measured_start (hs : s.Proper) : Measured p bound s [] (start s) := by
  refine ⟨storable_start hs, tidy_start hs, tracks_start hs, seenAt_start s, rfl, ordered_start s,
    List.pairwise_singleton _ _, fun n hn => ?_, fun _ _ h => absurd h List.not_mem_nil⟩
  obtain rfl := List.mem_singleton.mp hn
  exact p.isDistance_self s

section

variable (h : Measured p bound s turns search)
  (htakes : Takes Policy.oldest memory search.frontier node rest memory')

include h htakes

theorem Measured.mem_queuedIn : node ∈ queuedIn s turns := by
  rw [h.queue]
  exact List.mem_append_right _ htakes.mem

theorem Measured.exists_turn (hn : n ∈ queuedIn s turns) (hlt : n.depth < node.depth) :
    ∃ turn ∈ turns, turn.node = n := by
  rw [h.queue] at hn
  rcases List.mem_append.mp hn with hn | hn
  · exact List.mem_map.mp hn
  · exact absurd (h.window.depth_le htakes hn) (not_le.mpr hlt)

/-- No node is more than one deeper than the next one. -/
theorem Measured.depth_le_succ (hn : n ∈ queuedIn s turns) : n.depth ≤ node.depth + 1 := by
  have hascending := h.ascending
  have hwindow := h.window
  rw [h.queue] at hn hascending
  rw [htakes.eq_cons] at hwindow
  rcases List.mem_append.mp hn with hn | hn
  · have hle := (List.pairwise_append.mp hascending).2.2 n hn node htakes.mem
    omega
  · rcases htakes.eq_or_mem hn with rfl | hn
    · exact Nat.le_succ _
    · exact ((List.pairwise_cons.mp hwindow).1 n hn).2

/-- **The depth of a new child of the next node is the distance of its state.** -/
theorem Measured.isDistance_child (hrunning : search.halted = false)
    (hqueues : Queues search.seen new seen') (hn : n ∈ new) (hchild : ChildOf p node n)
    (hbound : ∀ b ∈ bound, (n.depth : Int) ≤ b) :
    p.IsDistance s n.state n.depth := by
  have hdepth := hchild.depth_eq
  refine ⟨?_, ?_⟩
  · obtain ⟨l, a, hl, hmem, -⟩ := hchild
    obtain ⟨⟨as, hlength, hleads⟩, -⟩ := h.distance node (h.mem_queuedIn htakes)
    refine ⟨as ++ [a], ?_, hleads.snoc hl hmem⟩
    rw [List.length_append, hlength, hdepth]
    rfl
  · rintro _ ⟨as, rfl, hleads⟩
    by_contra hshorter
    have hlimit : ∀ b ∈ bound, (node.depth : Int) ≤ b := by
      intro b hb
      have hle := hbound b hb
      omega
    have hsettled : ∀ m ∈ queuedIn s turns, m.depth < node.depth →
        p.reaches m.state = .ok false ∧ Settled p bound search.seen m := by
      intro m hm hlt
      obtain ⟨turn, hturn, rfl⟩ := h.exists_turn htakes hm hlt
      exact h.settled hrunning turn hturn
    -- the state would have been noted before, and the child not been queued
    obtain ⟨e, he, hnoted⟩ := h.tracks.seenAt_of_leads hlimit hsettled hleads h.start (by omega)
    have hsmaller := hqueues.smaller n hn e hnoted
    omega

end

/-- **A step that does not fail keeps the invariant**, if the search has not halted before. -/
theorem Measured.advance (h : Measured p bound s turns search) (hp : p.Proper)
    (hrunning : search.halted = false)
    (hstep : search.advance p Policy.oldest (bound.map .whole) verbose () = outcome)
    (herror : outcome.error = none) :
    Measured p bound s (turns ++ (turn? Policy.oldest () search outcome.search).toList)
      outcome.search := by
  rcases steps_of_advance hstep herror with ⟨hempty, hhalt, -⟩ | hsteps
  · rw [turn?_eq_none hempty, hhalt, Option.toList_none, List.append_nil]
    exact ⟨h.storable.halt _, h.tidy, h.tracks, h.start, h.queue, h.window, h.ascending,
      h.distance, nofun⟩
  obtain ⟨node, rest, _, new, _, htakes, hfrontier, -, -, -, hqueues, htidy, hsettled,
      hchildren, hwithin⟩ :=
    hsteps.turn hp rfl h.storable.frontier h.tidy
  have hdepth : ∀ n ∈ new, n.depth = node.depth + 1 := fun n hn => (hchildren n hn).depth_eq
  rw [htakes.turn?_eq hfrontier, Option.toList_some]
  refine
    { storable := hstep ▸ h.storable.advance hp
      tidy := htidy
      tracks := ?tracks
      start := ?start
      queue := ?queue
      window := ?window
      ascending := ?ascending
      distance := ?distance
      settled := ?settled }
  case tracks =>
    rw [queuedIn_snoc]
    exact h.tracks.append hqueues
  case start =>
    obtain ⟨e, he, hnoted⟩ := hqueues.lowers s 0 h.start
    rwa [Nat.le_zero.mp he] at hnoted
  case queue =>
    -- the first node that waits goes to the end of those taken
    rw [queuedIn_snoc, h.queue, htakes.eq_cons, hfrontier, List.map_append, List.append_assoc,
      List.append_assoc]
    rfl
  case window =>
    rw [hfrontier]
    exact (htakes.eq_cons ▸ h.window).advance hdepth
  case ascending =>
    rw [queuedIn_snoc]
    refine List.pairwise_append.mpr ⟨h.ascending, ?_, fun m hm n hn => ?_⟩
    · exact List.pairwise_of_forall_mem_list
        fun m hm n hn => (hdepth m hm).trans_le (hdepth n hn).ge
    · rw [hdepth n hn]
      exact h.depth_le_succ htakes hm
  case distance =>
    rw [queuedIn_snoc]
    exact List.forall_mem_append.mpr ⟨h.distance, fun n hn =>
      h.isDistance_child htakes hrunning hqueues hn (hchildren n hn) (hwithin n hn)⟩
  case settled =>
    intro hnext
    refine List.forall_mem_append.mpr
      ⟨fun turn hturn => ?_, List.forall_mem_singleton.mpr ⟨?_, hsettled⟩⟩
    · obtain ⟨hmissed, hearlier⟩ := h.settled hrunning turn hturn
      exact ⟨hmissed, hearlier.lowers hqueues.lowers⟩
    · exact hsteps.missed hnext htakes

/-- **The invariant holds after every run.** -/
theorem BreadthFirst.measured (h : BreadthFirst p bound s turns search) (hp : p.Proper)
    (hs : s.Proper) :
    Measured p bound s turns search := by
  induction h with
  | start => exact measured_start hs
  | step _ hrunning hstep herror ih => exact ih.advance hp hrunning hstep herror

/-! ## What is queued, taken and noted -/

theorem Measured.nodup (h : Measured p bound s turns search) :
    ((queuedIn s turns).map Node.state).Nodup := by
  refine List.pairwise_map.mpr ((h.tracks.fading.and h.ascending).imp ?_)
  rintro m n ⟨hfading, hle⟩ heq
  exact absurd (hfading heq) (not_lt.mpr hle)

theorem Measured.pairwise_taken (h : Measured p bound s turns search) :
    (turns.map fun turn => turn.node.depth).Pairwise (· ≤ ·) := by
  have hascending := h.ascending
  rw [h.queue] at hascending
  have htaken : (turns.map Turn.node).Pairwise fun m n => m.depth ≤ n.depth :=
    (List.pairwise_append.mp hascending).1
  rw [List.pairwise_map] at htaken ⊢
  exact htaken

theorem Measured.isDistance_of_mem (h : Measured p bound s turns search) {t : State} {c : Count}
    (hmem : (t, c) ∈ search.seen) : ∃ d : Nat, c = .whole d ∧ p.IsDistance s t d := by
  obtain ⟨-, d, rfl⟩ := h.tidy _ hmem
  obtain ⟨n, hn, rfl, rfl⟩ := h.tracks.origin t d (h.storable.mem_seen_iff.mp hmem)
  exact ⟨n.depth, rfl, h.distance n hn⟩

/-- **A search that takes the oldest node goes out from its initial state level by level**, whatever
its bound and however many steps it has taken, up to the one that halts it.  It takes its nodes in
the order in which they were queued.  The depths on the frontier never decrease and differ by at
most one, the depths of the nodes taken never decrease, and no state is queued twice.  Every state
that was queued is noted, and what is noted with a state is its distance from the initial one. -/
theorem BreadthFirst.notes_distances (hp : p.Proper) (hs : s.Proper)
    (h : BreadthFirst p bound s turns search) :
    queuedIn s turns = turns.map Turn.node ++ search.frontier ∧
    Ordered search.frontier ∧
    (turns.map fun turn => turn.node.depth).Pairwise (· ≤ ·) ∧
    ((queuedIn s turns).map Node.state).Nodup ∧
    (∀ n ∈ queuedIn s turns, ∃ c, (n.state, c) ∈ search.seen) ∧
    ∀ t c, (t, c) ∈ search.seen → ∃ d : Nat, c = .whole d ∧ p.IsDistance s t d := by
  have hmeasured := h.measured hp hs
  refine ⟨hmeasured.queue, hmeasured.window, hmeasured.pairwise_taken, hmeasured.nodup,
    fun n hn => ?_, fun _ _ => hmeasured.isDistance_of_mem⟩
  obtain ⟨e, -, hnoted⟩ := hmeasured.tracks.noted n hn
  exact ⟨_, hmeasured.storable.mem_seen_iff.mpr hnoted⟩

/-- Two ways lead from the street to the shore, past the mill and past the chapel; from the mill it
is no further to the wood. -/
def twoWays : Except Error Problem := do
  let way (name origin destination : String) :=
    Worlds.action name [] [(origin, [])] [] [(destination, [])] [(origin, [])] []
  let ways ← [way "Climb" "Street" "Mill", way "Stroll" "Street" "Chapel",
      way "Descend" "Mill" "Shore",
    way "Enter" "Mill" "Wood", way "Wade" "Chapel" "Shore"].mapM id
  Problem.make? (.str "two_ways") (← Worlds.facts [("Street", [])]) (ways.map .inl)
    (← Worlds.goal [("Shore", [])])

/-- Breadth first comes to the shore past the mill.  It has queued the shore once, and the wood
still waits. -/
theorem notes_distances_twoWays : ∃ p turns search, twoWays = .ok p ∧ p.Proper ∧
    p.initialState.Proper ∧
    BreadthFirst p none p.initialState turns search ∧
    search.halted = true ∧ search.frontier.map Node.depth = [2] ∧ search.seen.length = 5 ∧
    queuedIn p.initialState turns = turns.map Turn.node ++ search.frontier ∧
    Ordered search.frontier ∧
    (turns.map fun turn => turn.node.depth).Pairwise (· ≤ ·) ∧
    ((queuedIn p.initialState turns).map Node.state).Nodup ∧
    (∀ n ∈ queuedIn p.initialState turns, ∃ c, (n.state, c) ∈ search.seen) ∧
    ∀ t c, (t, c) ∈ search.seen → ∃ d : Nat, c = .whole d ∧ p.IsDistance p.initialState t d := by
  obtain ⟨p, hways, hproper⟩ : ∃ p, twoWays = .ok p ∧ p.Proper :=
    Problem.exists_ok_of_isProper (by decide +kernel)
  let run (p : Problem) : RunOutcome Unit :=
    (start p.initialState).run p Policy.oldest none false ⟨.whole 10, .ok false, fun _ => .ok false⟩
      ()
  -- the run is evaluated once, for all that is said about its end
  have hchecks : (twoWays.toOption.map fun p => (run p).error.isNone && ((run p).search.halted &&
      ((run p).search.frontier.map Node.depth == [2] && (run p).search.seen.length == 5))) =
      some true := by
    decide +kernel
  rw [hways] at hchecks
  obtain ⟨hnone, hchecks⟩ := Bool.and_eq_true_iff.mp (Option.some.inj hchecks)
  obtain ⟨hhalted, hchecks⟩ := Bool.and_eq_true_iff.mp hchecks
  obtain ⟨hfrontier, hseen⟩ := Bool.and_eq_true_iff.mp hchecks
  have hruns :
      RunsTo p Policy.oldest ((none : Option Int).map .whole) false 10 (start p.initialState) ()
      (run p).search (run p).error := runsTo_runFor rfl le_rfl rfl
  obtain ⟨turns, hbreadth⟩ := hruns.breadthFirst (Option.isNone_iff_eq_none.mp hnone) .start
  exact ⟨p, _, _, hways, hproper, hproper.initialState, hbreadth, hhalted, beq_iff_eq.mp hfrontier,
    beq_iff_eq.mp hseen, hbreadth.notes_distances hproper hproper.initialState⟩

end Search

end HornPlan
