import HornPlan.Proofs.Checkpoints
import HornPlan.Proofs.Plans
import Mathlib.Algebra.Order.BigOperators.Group.List
import Mathlib.Algebra.Order.Ring.Nat

/-!
# What a search keeps account of

A search that discards no nodes loses none of them.  To say so, its steps are logged (`Logged`): a
*turn* is the node that a step has taken from the frontier, the nodes that it has queued there, and
the depths noted when it was over.  Every node that was ever queued has then been taken in one turn,
or it is on the frontier; and the history has one entry for each turn, with as many actions as nodes
were queued.

In whatever order the nodes are taken, the depths noted are those of the nodes (`Tracks`): a state
is noted with the least depth of a node that holds it, since it is queued again only when its depth
is smaller than all before.  Nodes queued in one turn hold different states, for the depth noted
with the first keeps the others away (`Adds.queues`).

One step of the search is described once, whatever becomes of the node (`Steps.turn`), and a log is
settled by induction on its steps (`Logged.balanced`).
-/

namespace HornPlan.Search

variable {p : Problem} {M : Type} {policy : Policy M} {bound : Option Int} {verbose : Bool}
  {search next : Search} {memory memory' : M} {seen seen' : List (State × Count)} {s : State}
  {d : Nat}

/-! ## Depths of queued nodes -/

/-- The depths noted are those of the nodes queued so far, the oldest first. -/
structure Tracks (nodes : List Node) (seen : List (State × Count)) : Prop where
  fading : nodes.Pairwise fun m n => m.state = n.state → n.depth < m.depth
  noted : ∀ n ∈ nodes, ∃ e ≤ n.depth, SeenAt seen n.state e
  origin : ∀ s d, SeenAt seen s d → ∃ n ∈ nodes, n.state = s ∧ n.depth = d

theorem Tracks.isLeast_iff {nodes : List Node} (h : Tracks nodes seen) :
    SeenAt seen s d ↔ IsLeast {e | ∃ n ∈ nodes, n.state = s ∧ n.depth = e} d := by
  constructor
  · intro hs
    refine ⟨h.origin s d hs, ?_⟩
    rintro _ ⟨n, hn, rfl, rfl⟩
    obtain ⟨e, he, hnoted⟩ := h.noted n hn
    exact hs.depth_eq hnoted ▸ he
  · rintro ⟨⟨n, hn, rfl, rfl⟩, hleast⟩
    obtain ⟨e, he, hnoted⟩ := h.noted n hn
    have hle : n.depth ≤ e := hleast (h.origin n.state e hnoted)
    rwa [Nat.le_antisymm hle he]

theorem Tracks.nodup {nodes : List Node} (h : Tracks nodes seen) : nodes.Nodup := by
  refine h.fading.imp ?_
  rintro m n hlt rfl
  exact lt_irrefl _ (hlt rfl)

/-- What has changed when new nodes have been queued. -/
structure Queues (seen : List (State × Count)) (new : List Node)
    (seen' : List (State × Count)) : Prop where
  lowers : Lowers seen seen'
  smaller : ∀ n ∈ new, ∀ d, SeenAt seen n.state d → n.depth < d
  distinct : new.Pairwise fun m n => m.state ≠ n.state
  noted : ∀ n ∈ new, ∃ e ≤ n.depth, SeenAt seen' n.state e
  origin : ∀ s d, SeenAt seen' s d → SeenAt seen s d ∨ ∃ n ∈ new, n.state = s ∧ n.depth = d

theorem Queues.nil (seen : List (State × Count)) : Queues seen [] seen :=
  ⟨.refl seen, fun _ h => absurd h List.not_mem_nil, .nil, fun _ h => absurd h List.not_mem_nil,
    fun _ _ h => Or.inl h⟩

/-- **The depths stay those of the nodes** when new ones are queued behind the others. -/
theorem Tracks.append {nodes new : List Node} (h : Tracks nodes seen)
    (hnew : Queues seen new seen') :
    Tracks (nodes ++ new) seen' := by
  refine ⟨List.pairwise_append.mpr ⟨h.fading, ?_, ?_⟩, ?_, ?_⟩
  · exact hnew.distinct.imp fun hne heq => absurd heq hne
  · intro m hm n hn heq
    obtain ⟨e, he, hnoted⟩ := h.noted m hm
    exact (hnew.smaller n hn e (heq ▸ hnoted)).trans_le he
  · intro n hn
    rcases List.mem_append.mp hn with hn | hn
    · obtain ⟨e, he, hnoted⟩ := h.noted n hn
      obtain ⟨e', he', hnoted⟩ := hnew.lowers _ e hnoted
      exact ⟨e', he'.trans he, hnoted⟩
    · exact hnew.noted n hn
  · intro s d hs
    rcases hnew.origin s d hs with hs | ⟨n, hn, hnode⟩
    · obtain ⟨n, hn, hnode⟩ := h.origin s d hs
      exact ⟨n, List.mem_append_left new hn, hnode⟩
    · exact ⟨n, List.mem_append_right nodes hn, hnode⟩

section

variable {parent : Node} {l : List (Action × State)} {new : List Node}

theorem Lowers.lt (h : Lowers seen seen') {k : Nat} (hless : ∀ e, SeenAt seen' s e → k < e)
    (hd : SeenAt seen s d) :
    k < d := by
  obtain ⟨e, he, hnoted⟩ := h s d hd
  exact (hless e hnoted).trans_le he

/-- A node is queued at a smaller depth than any that was noted for its state, and so no two of them
hold one state. -/
theorem Adds.smaller (h : Adds policy parent seen memory l new seen' memory') (hseen : Tidy seen)
    (hl : ∀ successor ∈ l, successor.2.Proper) :
    (∀ n ∈ new, ∀ d, SeenAt seen n.state d → parent.depth + 1 < d) ∧
      new.Pairwise fun m n => m.state ≠ n.state := by
  induction h with
  | nil => exact ⟨fun _ h => absurd h List.not_mem_nil, .nil⟩
  | known _ _ ih => exact ih hseen (List.forall_mem_cons.mp hl).2
  | @pruned seen _ _ _ a u _ _ _ _ _ hfresh _ _ _ ih =>
      obtain ⟨hu, hrest⟩ := List.forall_mem_cons.mp hl
      obtain ⟨hsmaller, hdistinct⟩ := ih (hseen.recordDepth hu _) hrest
      exact ⟨fun n hn d hd => (lowers_recordDepth hseen hu hfresh).lt (hsmaller n hn) hd, hdistinct⟩
  | @kept seen _ _ _ a u _ new _ _ _ hfresh _ _ _ ih =>
      obtain ⟨hu, hrest⟩ := List.forall_mem_cons.mp hl
      obtain ⟨hsmaller, hdistinct⟩ := ih (hseen.recordDepth hu _) hrest
      refine ⟨List.forall_mem_cons.mpr ⟨fun d hd => lt_of_not_seenBy hseen hfresh hd, ?_⟩,
        List.pairwise_cons.mpr ⟨?_, hdistinct⟩⟩
      · exact fun n hn d hd => (lowers_recordDepth hseen hu hfresh).lt (hsmaller n hn) hd
      · -- the depth of the first node is noted, and that of a second one is no smaller
        rintro n hn rfl
        exact lt_irrefl _ (hsmaller n hn _ (seenAt_recordDepth_self hu))

/-- **Looking at successors queues nodes that the depths noted belong to**, if none are
discarded. -/
theorem Adds.queues (h : Adds policy parent seen memory l new seen' memory')
    (hkeep : policy.prune = keepAll) (hseen : Tidy seen)
    (hl : ∀ successor ∈ l, successor.2.Proper) : Queues seen new seen' := by
  obtain ⟨hlowers, hwithin⟩ := h.lowers hseen hl
  obtain ⟨hsmaller, hdistinct⟩ := h.smaller hseen hl
  refine ⟨hlowers, ?_, hdistinct, ?_, ?_⟩
  · intro n hn
    rw [h.depth_eq hn]
    exact hsmaller n hn
  · intro n hn
    obtain ⟨a, hmem, -⟩ := h.exists_of_mem hn
    rw [h.depth_eq hn]
    exact hwithin _ hmem
  · intro s d hs
    have hnone : ∀ memory (node : Node) search, True → node.state.Proper →
        (policy.prune memory node search).answer = .ok true → False := by
      intro memory node search _ _ hpruned
      rw [hkeep] at hpruned
      cases hpruned
    have horigin := h.origin_of (fun _ => False) (fun _ _ _ _ => trivial) hnone trivial hseen hl hs
    rwa [or_false] at horigin

end

/-! ## Turns -/

/-- A node has been tested, and unless it is the goal or stands at the bound it has been expanded:
the states of its successors are noted at most one deeper. -/
def Settled (p : Problem) (bound : Option Int) (seen : List (State × Count)) (n : Node) : Prop :=
  p.reaches n.state = .ok true ∨ p.reaches n.state = .ok false ∧
    ((∀ b ∈ bound, (n.depth : Int) < b) →
      ∃ l, p.successors n.state = .ok l ∧ SeenWithin seen l (n.depth + 1))

theorem Settled.lowers {n : Node} (h : Settled p bound seen n) (hlowers : Lowers seen seen') :
    Settled p bound seen' n := by
  refine h.imp_right fun ⟨hreaches, hexpanded⟩ => ⟨hreaches, fun habove => ?_⟩
  obtain ⟨l, hl, hwithin⟩ := hexpanded habove
  exact ⟨l, hl, hwithin.lowers le_rfl hlowers⟩

/-- **The depths noted follow a path** as far as it is no longer than a limit, where the nodes that
are less deep than the limit are settled and miss the goal. -/
theorem Tracks.seenAt_of_leads {nodes : List Node} (h : Tracks nodes seen) {limit : Nat}
    (hlimit : ∀ b ∈ bound, (limit : Int) ≤ b)
    (hsettled : ∀ n ∈ nodes, n.depth < limit → p.reaches n.state = .ok false ∧
      Settled p bound seen n)
    {t : State} {as : List Action} (hpath : p.Leads s as t) (hs : SeenAt seen s d)
    (hlength : d + as.length ≤ limit) :
    ∃ e ≤ d + as.length, SeenAt seen t e := by
  induction hpath generalizing d with
  | nil s => exact ⟨d, le_rfl, hs⟩
  | @cons s u t a as l hl hmem _ ih =>
      rw [List.length_cons] at hlength ⊢
      obtain ⟨n, hn, rfl, rfl⟩ := h.origin s d hs
      obtain ⟨hmissed, hreaches | ⟨-, hexpanded⟩⟩ := hsettled n hn (by omega)
      · cases hmissed.symm.trans hreaches
      · have habove : ∀ b ∈ bound, (n.depth : Int) < b := by
          intro b hb
          have hle := hlimit b hb
          omega
        obtain ⟨l', hl', hwithin⟩ := hexpanded habove
        obtain rfl := Except.ok.inj (hl.symm.trans hl')
        obtain ⟨e, he, hu⟩ := hwithin (a, u) hmem
        obtain ⟨e', he', ht⟩ := ih hu (by omega)
        exact ⟨e', by omega, ht⟩

/-- The node that a policy takes, if it takes one. -/
def taken? (policy : Policy M) (memory : M) (frontier : List Node) : Option Node :=
  match (policy.choose memory frontier).answer with
  | .ok index => frontier[index]?
  | .error _ => none

theorem Takes.taken?_eq {frontier rest : List Node} {node : Node}
    (h : Takes policy memory frontier node rest memory') :
    taken? policy memory frontier = some node := by
  obtain ⟨index, hindex, hnode, -⟩ := h.chosen
  rw [taken?, hindex]
  exact hnode

theorem Takes.perm {frontier rest : List Node} {node : Node}
    (h : Takes policy memory frontier node rest memory') : frontier.Perm (node :: rest) := by
  obtain ⟨index, -, hnode, rfl⟩ := h.chosen
  obtain ⟨hlt, rfl⟩ := List.getElem?_eq_some_iff.mp hnode
  exact (List.getElem_cons_eraseIdx_perm hlt).symm

/-- What is put down about new nodes, each of which has an action, lists as many actions. -/
theorem exists_expansion_of_add {history history' : History} {node : Node} {fresh : List Node}
    {goal : Bool} (hfresh : ∀ n ∈ fresh, n.actions ≠ [])
    (h : history.add (search.expansionOf node fresh goal) = .ok history') :
    ∃ e, history.add (.ok (.expansion e)) = .ok history' ∧ e.produced.length = fresh.length := by
  cases hentry : search.expansionOf node fresh goal with
  | error error =>
      rw [hentry] at h
      cases history <;> cases h
  | ok entry =>
      rw [hentry] at h
      obtain ⟨e, rfl, hproduced⟩ := expansionOf_eq_ok hentry
      refine ⟨e, h, ?_⟩
      rw [hproduced, List.length_map, List.filterMap_length_eq_length]
      intro n hn
      rw [List.getLast?_isSome]
      exact hfresh n hn

/-- A node holds a successor of the state of another one, with the action behind those that lead
there. -/
def ChildOf (p : Problem) (parent n : Node) : Prop :=
  ∃ l a, p.successors parent.state = .ok l ∧ (a, n.state) ∈ l ∧ n.actions = parent.actions ++ [a]

theorem ChildOf.actions_ne_nil {parent n : Node} (h : ChildOf p parent n) : n.actions ≠ [] := by
  obtain ⟨_, a, -, -, hactions⟩ := h
  rw [hactions]
  exact List.append_ne_nil_of_right_ne_nil _ (List.cons_ne_nil a [])

theorem ChildOf.depth_eq {parent n : Node} (h : ChildOf p parent n) :
    n.depth = parent.depth + 1 := by
  obtain ⟨_, _, -, -, hactions⟩ := h
  rw [Node.depth, hactions, List.length_append]
  rfl

/-- **What every step does that takes a node and discards none**: the node is settled, children of
it within the bound join the other nodes, and the step is counted and put down with as many actions
as there are children. -/
theorem Steps.turn (hp : p.Proper) (hkeep : policy.prune = keepAll)
    (hfrontier : ∀ n ∈ search.frontier, n.Proper) (hseen : Tidy search.seen)
    (h : Steps p policy (bound.map .whole) search memory next memory') :
    ∃ node rest taken new e, Takes policy memory search.frontier node rest taken ∧
      next.frontier = rest ++ new ∧ search.step.next = .ok next.step ∧
      search.history.add (.ok (.expansion e)) = .ok next.history ∧ e.produced.length = new.length ∧
      Queues search.seen new next.seen ∧ Tidy next.seen ∧ Settled p bound next.seen node ∧
      (∀ n ∈ new, ChildOf p node n) ∧ ∀ n ∈ new, ∀ b ∈ bound, (n.depth : Int) ≤ b := by
  cases h with
  -- a goal has no children, and neither has a node at the bound
  | found htakes hstep hreaches hhistory =>
      obtain ⟨e, hadd, hlength⟩ :=
        exists_expansion_of_add (fun _ h => absurd h List.not_mem_nil) hhistory
      exact ⟨_, _, _, [], e, htakes, (List.append_nil _).symm, hstep, hadd, hlength, .nil _, hseen,
        Or.inl hreaches, fun _ h => absurd h List.not_mem_nil, fun _ h => absurd h List.not_mem_nil⟩
  | @cut _ node _ _ _ htakes hstep hreaches hbound hhistory =>
      obtain ⟨e, hadd, hlength⟩ :=
        exists_expansion_of_add (fun _ h => absurd h List.not_mem_nil) hhistory
      refine ⟨_, _, _, [], e, htakes, (List.append_nil _).symm, hstep, hadd, hlength, .nil _, hseen,
        Or.inr ⟨hreaches, fun habove => ?_⟩,
        fun _ h => absurd h List.not_mem_nil, fun _ h => absurd h List.not_mem_nil⟩
      cases bound with
      | none => cases hbound
      | some b =>
          rw [Option.map_some, atBound_whole] at hbound
          exact absurd (habove b rfl) (not_lt.mpr (of_decide_eq_true (Except.ok.inj hbound)))
  | @expanded _ _ node _ new _ _ l _ htakes hstep hreaches hbound hl hadds hhistory =>
      have hproper : ∀ successor ∈ l, successor.2.Proper := fun _ hmem =>
        hp.successor (hfrontier node htakes.mem).state hl hmem
      have hchildren : ∀ n ∈ new, ChildOf p node n := by
        intro n hn
        obtain ⟨a, hmem, hactions⟩ := hadds.exists_of_mem hn
        exact ⟨l, a, hl, hmem, hactions⟩
      have hwithin : ∀ n ∈ new, ∀ b ∈ bound, (n.depth : Int) ≤ b := by
        rintro n hn b rfl
        rw [Option.map_some, atBound_whole] at hbound
        have habove := of_decide_eq_false (Except.ok.inj hbound)
        rw [hadds.depth_eq hn]
        omega
      obtain ⟨e, hadd, hlength⟩ :=
        exists_expansion_of_add (fun n hn => (hchildren n hn).actions_ne_nil) hhistory
      exact ⟨node, _, _, new, e, htakes, rfl, hstep, hadd, hlength,
        hadds.queues hkeep hseen hproper, hadds.tidy hseen hproper,
        Or.inr ⟨hreaches, fun _ => ⟨l, hl, (hadds.lowers hseen hproper).2⟩⟩, hchildren, hwithin⟩

theorem Steps.missed {bound : Option Count} (h : Steps p policy bound search memory next memory')
    (hrunning : next.halted = false) {node : Node} {rest : List Node} {taken : M}
    (htakes : Takes policy memory search.frontier node rest taken) :
    p.reaches node.state = .ok false := by
  have hsame : ∀ {node' rest' taken'}, Takes policy memory search.frontier node' rest' taken' →
      node' = node :=
    fun htakes' => Option.some.inj (htakes'.taken?_eq.symm.trans htakes.taken?_eq)
  cases h with
  | found => cases hrunning
  | cut htakes' _ hreaches | expanded htakes' _ hreaches => exact hsame htakes' ▸ hreaches

/-! ## Logs -/

/-- What a step has done: the node that it took, the nodes that it queued, and the depths noted when
it was over. -/
structure Turn where
  node : Node
  queued : List Node
  seen : List (State × Count)

/-- The turn of a step from one search to the next: new nodes stand behind all that were left. -/
def turn? (policy : Policy M) (memory : M) (search next : Search) : Option Turn :=
  (taken? policy memory search.frontier).map fun node =>
    ⟨node, next.frontier.drop (search.frontier.length - 1), next.seen⟩

theorem Takes.turn?_eq {rest new : List Node} {node : Node}
    (h : Takes policy memory search.frontier node rest memory')
    (hfrontier : next.frontier = rest ++ new) :
    turn? policy memory search next = some ⟨node, new, next.seen⟩ := by
  have hlength : search.frontier.length - 1 = rest.length := by
    rw [h.perm.length_eq, List.length_cons, Nat.add_sub_cancel]
  rw [turn?, h.taken?_eq, Option.map_some, hfrontier, hlength, List.drop_left]

theorem turn?_eq_none (h : search.frontier = []) : turn? policy memory search next = none := by
  rw [turn?, taken?, h]
  split <;> rfl

/-- The turns of any number of steps from the start of a search, none of which fails.  Steps may
follow after the search has halted; without a node to take they do nothing. -/
inductive Logged (p : Problem) (policy : Policy M) (bound : Option Int) (verbose : Bool)
    (memory : M) :
    List Turn → Search → M → Prop
  | start : Logged p policy bound verbose memory [] (start p.initialState) memory
  | step {turns : List Turn} {search : Search} {memory' : M} {outcome : Outcome M}
      (h : Logged p policy bound verbose memory turns search memory')
      (hstep : search.advance p policy (bound.map .whole) verbose memory' = outcome)
      (herror : outcome.error = none) :
      Logged p policy bound verbose memory
      (turns ++ (turn? policy memory' search outcome.search).toList)
        outcome.search outcome.memory

/-- The nodes that were ever queued: the first one, and those of all turns in order. -/
def queuedIn (s : State) (turns : List Turn) : List Node :=
  ⟨s, [], 0⟩ :: turns.flatMap Turn.queued

theorem queuedIn_snoc (s : State) (turns : List Turn) (turn : Turn) :
    queuedIn s (turns ++ [turn]) = queuedIn s turns ++ turn.queued := by
  rw [queuedIn, List.flatMap_append, List.flatMap_singleton]
  rfl

theorem tracks_start (hs : s.Proper) : Tracks (queuedIn s []) (start s).seen := by
  refine ⟨List.pairwise_singleton _ _, fun n hn => ?_, fun t d ht => ?_⟩
  · obtain rfl := List.mem_singleton.mp hn
    exact ⟨0, le_rfl, seenAt_start s⟩
  · obtain ⟨rfl, rfl⟩ := eq_of_seenAt_start hs ht
    exact ⟨_, List.mem_singleton_self _, rfl, rfl⟩

/-- The account of a search agrees with its log. -/
structure Balanced (p : Problem) (bound : Option Int) (turns : List Turn)
    (search : Search) : Prop where
  storable : search.Storable
  tidy : Tidy search.seen
  tracks : Tracks (queuedIn p.initialState turns) search.seen
  perm : (queuedIn p.initialState turns).Perm (turns.map Turn.node ++ search.frontier)
  recorded : ∃ es : List Expansion, search.history = .entries (es.map .expansion) ∧
    search.step = .whole es.length ∧
    es.map (fun e => e.produced.length) = turns.map fun turn => turn.queued.length
  settled : ∀ turn ∈ turns, Settled p bound turn.seen turn.node
  lowers : ∀ turn ∈ turns, Lowers turn.seen search.seen

theorem balanced_start (hp : p.Proper) : Balanced p bound [] (start p.initialState) :=
  ⟨storable_start hp.initialState, tidy_start hp.initialState, tracks_start hp.initialState,
    .refl _, ⟨[], rfl, rfl, rfl⟩,
    fun _ h => absurd h List.not_mem_nil, fun _ h => absurd h List.not_mem_nil⟩

/-- **A step that does not fail keeps the account balanced.** -/
theorem Balanced.advance {turns : List Turn} {outcome : Outcome M}
    (h : Balanced p bound turns search) (hp : p.Proper) (hkeep : policy.prune = keepAll)
    (hstep : search.advance p policy (bound.map .whole) verbose memory = outcome)
    (herror : outcome.error = none) :
    Balanced p bound (turns ++ (turn? policy memory search outcome.search).toList)
      outcome.search := by
  rcases steps_of_advance hstep herror with ⟨hempty, hhalt, -⟩ | hsteps
  · rw [turn?_eq_none hempty, hhalt, Option.toList_none, List.append_nil]
    exact ⟨h.storable.halt _, h.tidy, h.tracks, h.perm, h.recorded, h.settled, h.lowers⟩
  · obtain ⟨node, rest, _, new, e, htakes, hfrontier, hnext, hadd, hlength, hqueues, htidy,
        hsettled, -⟩ :=
      hsteps.turn hp hkeep h.storable.frontier h.tidy
    rw [htakes.turn?_eq hfrontier, Option.toList_some]
    refine ⟨hstep ▸ h.storable.advance hp, htidy, ?_, ?_, ?_, ?_, ?_⟩
    · rw [queuedIn_snoc]
      exact h.tracks.append hqueues
    · -- the node goes from the frontier to the nodes taken
      rw [queuedIn_snoc, hfrontier, List.map_append, List.append_assoc]
      refine (h.perm.append_right new).trans ?_
      rw [List.append_assoc]
      exact (htakes.perm.append_right new).append_left _
    · obtain ⟨es, hes, hcount, hlengths⟩ := h.recorded
      rw [hes] at hadd
      rw [hcount] at hnext
      refine ⟨es ++ [e], ?_, ?_, ?_⟩
      · rw [← Except.ok.inj hadd, List.map_append]
        rfl
      · rw [← Except.ok.inj hnext, List.length_append]
        rfl
      · rw [List.map_append, List.map_append, hlengths, List.map_singleton,
          List.map_singleton, hlength]
    · exact List.forall_mem_append.mpr ⟨h.settled, List.forall_mem_singleton.mpr hsettled⟩
    · exact List.forall_mem_append.mpr
        ⟨fun turn hturn => (h.lowers turn hturn).trans hqueues.lowers,
        List.forall_mem_singleton.mpr (.refl _)⟩

/-- **The account of every search agrees with its log.** -/
theorem Logged.balanced {turns : List Turn} (hp : p.Proper) (hkeep : policy.prune = keepAll)
    (h : Logged p policy bound verbose memory turns search memory') :
    Balanced p bound turns search := by
  induction h with
  | start => exact balanced_start hp
  | step _ hstep herror ih => exact ih.advance hp hkeep hstep herror

/-! ## The account -/

/-- Each state is noted once, so that what is noted is what is found when it is looked up. -/
theorem Storable.mem_seen_iff (h : search.Storable) :
    (s, .whole d) ∈ search.seen ↔ SeenAt search.seen s d := by
  have hdistinct := h.distinct
  have hproper := h.seen
  unfold SeenAt
  generalize search.seen = noted at hdistinct hproper ⊢
  induction noted with
  | nil => exact ⟨fun h => absurd h List.not_mem_nil, nofun⟩
  | cons entry rest ih =>
      obtain ⟨hentry, hrest⟩ := List.forall_mem_cons.mp hproper
      rw [List.map_cons, List.nodup_cons] at hdistinct
      rw [List.mem_cons, List.lookup_cons]
      by_cases heq : s = entry.1
      · subst heq
        have hnot : (entry.1, .whole d) ∉ rest :=
          fun hmem => hdistinct.1 (List.mem_map.mpr ⟨_, hmem, rfl⟩)
        rw [BEq.rfl, or_iff_left hnot, Option.some.injEq]
        exact ⟨fun h => congrArg Prod.snd h.symm, fun h => Prod.ext rfl h.symm⟩
      · have hbeq : (s == entry.1) = false := by
          rw [Bool.eq_false_iff]
          exact fun hbeq => heq (State.eq_of_beq (Or.inr hentry) hbeq)
        rw [hbeq, or_iff_right (fun h => heq (congrArg Prod.fst h))]
        exact ih hdistinct.2 hrest

theorem Balanced.length_frontier {turns : List Turn} (h : Balanced p bound turns search)
    {es : List Expansion}
    (hes : es.map (fun e => e.produced.length) = turns.map fun turn => turn.queued.length) :
    search.frontier.length + es.length = 1 + (es.map fun e => e.produced.length).sum := by
  have hturns : es.length = turns.length := by simpa using congrArg List.length hes
  have hlength := h.perm.length_eq
  rw [queuedIn, List.length_cons, List.length_flatMap, List.length_append, List.length_map, ← hes]
    at hlength
  omega

/-- **What a search that discards no nodes keeps account of**, however its nodes are chosen and
after any number of steps.  The steps are as many as the entries of the history, and the nodes on
the frontier are as many as were produced, and the first one, less those taken.  The nodes ever
queued are those taken and those on the frontier, each once, and those with one state have smaller
and smaller depths.  A state is noted with the least depth of a node that holds it.  Every node
taken has been tested and, unless it is the goal or stands at the bound, expanded: the states of its
successors are noted at most one deeper, from then on.  And for every state that is noted, a node
with that depth is one of these or on the frontier. -/
theorem Logged.accounts {turns : List Turn} (hp : p.Proper) (hkeep : policy.prune = keepAll)
    (h : Logged p policy bound verbose memory turns search memory') :
    (∃ es : List Expansion, search.history = .entries (es.map .expansion) ∧
      search.step = .whole es.length ∧
      search.frontier.length + es.length = 1 + (es.map fun e => e.produced.length).sum) ∧
    (queuedIn p.initialState turns).Perm (turns.map Turn.node ++ search.frontier) ∧
    (queuedIn p.initialState turns).Nodup ∧
    (queuedIn p.initialState turns).Pairwise (fun m n => m.state = n.state → n.depth < m.depth) ∧
    (∀ s c, (s, c) ∈ search.seen ↔ ∃ d : Nat, c = .whole d ∧
      IsLeast {e | ∃ n ∈ queuedIn p.initialState turns, n.state = s ∧ n.depth = e} d) ∧
    (∀ turn ∈ turns, Settled p bound search.seen turn.node) ∧
    ∀ s c, (s, c) ∈ search.seen → ∃ n : Node, n.state = s ∧ c = .whole n.depth ∧
      (n ∈ search.frontier ∨ ∃ turn ∈ turns, turn.node = n ∧ Settled p bound turn.seen n) := by
  have hbalanced := h.balanced hp hkeep
  have hnoted : ∀ s c, (s, c) ∈ search.seen ↔ ∃ d : Nat, c = .whole d ∧ SeenAt search.seen s d := by
    intro s c
    constructor
    · intro hmem
      obtain ⟨-, d, rfl⟩ := hbalanced.tidy _ hmem
      exact ⟨d, rfl, hbalanced.storable.mem_seen_iff.mp hmem⟩
    · rintro ⟨d, rfl, hs⟩
      exact hbalanced.storable.mem_seen_iff.mpr hs
  refine ⟨?_, hbalanced.perm, hbalanced.tracks.nodup, hbalanced.tracks.fading, ?_,
    fun turn hturn => (hbalanced.settled turn hturn).lowers (hbalanced.lowers turn hturn), ?_⟩
  · obtain ⟨es, hes, hcount, hlengths⟩ := hbalanced.recorded
    exact ⟨es, hes, hcount, hbalanced.length_frontier hlengths⟩
  · intro s c
    rw [hnoted]
    exact exists_congr fun d => and_congr_right fun _ => hbalanced.tracks.isLeast_iff
  · intro s c hmem
    obtain ⟨d, rfl, hs⟩ := (hnoted s c).mp hmem
    obtain ⟨n, hn, hstate, rfl⟩ := hbalanced.tracks.origin s d hs
    refine ⟨n, hstate, rfl, ?_⟩
    -- the node was taken, or it still waits
    rcases List.mem_append.mp (hbalanced.perm.mem_iff.mp hn) with htaken | hwaiting
    · obtain ⟨turn, hturn, rfl⟩ := List.mem_map.mp htaken
      exact Or.inr ⟨turn, hturn, rfl, hbalanced.settled turn hturn⟩
    · exact Or.inl hwaiting

/-- Two steps of a search for the cake that is eaten and had. -/
theorem accounts_haveCake : ∃ p turns search, Worlds.haveCake = .ok p ∧ p.Proper ∧
    Policy.oldest.prune = keepAll ∧ Logged p Policy.oldest (some 2) false () turns search () ∧
    search.history.size.toOption = some 2 ∧
    (∃ es : List Expansion, search.history = .entries (es.map .expansion) ∧
      search.step = .whole es.length ∧
      search.frontier.length + es.length = 1 + (es.map fun e => e.produced.length).sum) ∧
    (queuedIn p.initialState turns).Perm (turns.map Turn.node ++ search.frontier) ∧
    (queuedIn p.initialState turns).Nodup ∧
    (queuedIn p.initialState turns).Pairwise (fun m n => m.state = n.state → n.depth < m.depth) ∧
    (∀ s c, (s, c) ∈ search.seen ↔ ∃ d : Nat, c = .whole d ∧
      IsLeast {e | ∃ n ∈ queuedIn p.initialState turns, n.state = s ∧ n.depth = e} d) ∧
    (∀ turn ∈ turns, Settled p (some 2) search.seen turn.node) ∧
    ∀ s c, (s, c) ∈ search.seen → ∃ n : Node, n.state = s ∧ c = .whole n.depth ∧
      (n ∈ search.frontier ∨ ∃ turn ∈ turns, turn.node = n ∧ Settled p (some 2) turn.seen n) := by
  obtain ⟨p, hcake, hproper⟩ := Problem.exists_haveCake
  let advanced (p : Problem) (search : Search) : Outcome Unit :=
    search.advance p Policy.oldest (some (.whole 2)) false ()
  have hsteps : (Worlds.haveCake.toOption.map fun p =>
      let first := advanced p (start p.initialState)
      let second := advanced p first.search
      first.error.isNone && second.error.isNone && second.search.history.size.toOption == some 2)
        = some true := by
    decide +kernel
  rw [hcake] at hsteps
  have hchecks := Option.some.inj hsteps
  rw [Bool.and_eq_true, Bool.and_eq_true] at hchecks
  obtain ⟨⟨hfirst, hsecond⟩, hsize⟩ := hchecks
  have hone :
      Logged p Policy.oldest (some 2) false () _ (advanced p (start p.initialState)).search () :=
    .step .start rfl (Option.isNone_iff_eq_none.mp hfirst)
  have htwo : Logged p Policy.oldest (some 2) false () _
      (advanced p (advanced p (start p.initialState)).search).search () :=
    hone.step rfl (Option.isNone_iff_eq_none.mp hsecond)
  exact ⟨p, _, _, hcake, hproper, rfl, htwo, beq_iff_eq.mp hsize, htwo.accounts hproper rfl⟩

end HornPlan.Search
