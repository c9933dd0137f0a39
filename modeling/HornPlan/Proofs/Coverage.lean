import HornPlan.Search.Strategy
import HornPlan.Proofs.RelaxedGraphs
import HornPlan.Proofs.Searches

/-!
# What a search has covered

A search keeps the least depth at which it has generated each state.  In whatever order its nodes
are taken, a state that was generated at some depth is accounted for in one of three ways
(`Covered`): a node on the frontier holds it at that depth or a smaller one, no path from it reaches
the goal, or it was expanded, so that it misses the goal and its successors were generated at most
one deeper.

A state that is generated again at a smaller depth is queued again, and a policy may only discard
states from which the goal cannot be reached (`Admissible`).  So on every path to the goal within
the bound some node waits (`Covered.exists_waiting`), and paths that are too short to leave the
states accounted for by expansion do not reach the goal (`Covered.reaches_ne`).
-/

namespace HornPlan

namespace Search

variable {p : Problem} {M : Type} {policy : Policy M} {Valid : M → Prop} {b : Nat}

/-! ## The least depths -/

/-- The states generated so far are proper, and their depths whole numbers. -/
def Tidy (seen : List (State × Count)) : Prop :=
  ∀ entry ∈ seen, entry.1.Proper ∧ ∃ d : Nat, entry.2 = .whole d

/-- The least depth at which a state was generated. -/
def SeenAt (seen : List (State × Count)) (s : State) (d : Nat) : Prop :=
  seen.lookup s = some (.whole d)

variable {seen seen' : List (State × Count)} {s t : State} {d e : Nat}

theorem SeenAt.depth_eq (h : SeenAt seen s d) (h' : SeenAt seen s e) : d = e :=
  Int.ofNat.inj (Count.whole.inj (Option.some.inj (h.symm.trans h')))

theorem tidy_start (hs : s.Proper) : Tidy (start s).seen := by
  intro entry hentry
  obtain rfl := List.mem_singleton.mp hentry
  exact ⟨hs, 0, rfl⟩

theorem seenAt_start (s : State) : SeenAt (start s).seen s 0 :=
  List.lookup_cons_self

theorem eq_of_seenAt_start (hs : s.Proper) (h : SeenAt (start s).seen t d) : t = s ∧ d = 0 := by
  obtain ⟨entry, hentry, heq, hdepth⟩ := exists_of_lookup_eq_some h
  obtain rfl := List.mem_singleton.mp hentry
  exact ⟨State.eq_of_beq (Or.inr hs) heq, (Int.ofNat.inj (Count.whole.inj hdepth)).symm⟩

theorem lookup_overwrite_self {c : Count} (hany : seen.any (·.1 == s)) (hs : s.Proper) :
    (seen.map fun entry => if entry.1 == s then (entry.1, c) else entry).lookup s = some c := by
  induction seen with
  | nil => cases hany
  | cons entry rest ih =>
      rw [List.map_cons]
      by_cases heq : entry.1 == s
      · rw [if_pos heq, List.lookup_cons, State.eq_of_beq (Or.inr hs) heq, BEq.rfl]
      · have hne : (s == entry.1) = false := by
          rw [Bool.eq_false_iff]
          intro hbeq
          exact heq (State.eq_of_beq (Or.inl hs) hbeq ▸ BEq.rfl)
        rw [Bool.not_eq_true] at heq
        rw [List.any_cons, heq, Bool.false_or] at hany
        rw [heq, if_neg Bool.false_ne_true, List.lookup_cons, hne]
        exact ih hany

theorem lookup_overwrite_of_ne {c : Count} (hseen : Tidy seen) (hne : t ≠ s) :
    (seen.map fun entry => if entry.1 == s then (entry.1, c) else entry).lookup t =
      seen.lookup t := by
  induction seen with
  | nil => rfl
  | cons entry rest ih =>
      obtain ⟨⟨hentry, -⟩, hrest⟩ := List.forall_mem_cons.mp hseen
      rw [List.map_cons]
      by_cases heq : entry.1 == s
      · have hbeq : (t == entry.1) = false := by
          rw [Bool.eq_false_iff]
          intro hbeq
          exact hne ((State.eq_of_beq (Or.inr hentry) hbeq).trans
            (State.eq_of_beq (Or.inl hentry) heq))
        rw [if_pos heq, List.lookup_cons, List.lookup_cons, hbeq]
        exact ih hrest
      · rw [if_neg heq, List.lookup_cons, List.lookup_cons, ih hrest]

theorem seenAt_recordDepth_self (hs : s.Proper) : SeenAt (recordDepth seen s (.whole d)) s d := by
  unfold SeenAt recordDepth
  split
  · rename_i hany
    exact lookup_overwrite_self hany hs
  · rename_i hany
    have hnone : seen.lookup s = none := by
      rw [List.lookup_eq_none_iff]
      intro entry hentry
      rw [bne, Bool.not_eq_true', Bool.eq_false_iff]
      intro hbeq
      exact hany (List.any_eq_true.mpr ⟨entry, hentry, State.eq_of_beq (Or.inl hs) hbeq ▸ BEq.rfl⟩)
    rw [List.lookup_append, hnone, Option.none_or, List.lookup_cons, BEq.rfl]

theorem lookup_recordDepth_of_ne {c : Count} (hseen : Tidy seen) (hs : s.Proper) (hne : t ≠ s) :
    (recordDepth seen s c).lookup t = seen.lookup t := by
  unfold recordDepth
  split
  · exact lookup_overwrite_of_ne hseen hne
  · have hbeq : (t == s) = false := by
      rw [Bool.eq_false_iff]
      intro hbeq
      exact hne (State.eq_of_beq (Or.inr hs) hbeq)
    rw [List.lookup_append, List.lookup_cons, hbeq, List.lookup_nil, Option.or_none]

theorem Tidy.recordDepth (hseen : Tidy seen) (hs : s.Proper) (d : Nat) :
    Tidy (recordDepth seen s (.whole d)) := by
  unfold Search.recordDepth
  split
  · intro entry hentry
    obtain ⟨earlier, hearlier, rfl⟩ := List.mem_map.mp hentry
    split
    · exact ⟨(hseen earlier hearlier).1, d, rfl⟩
    · exact hseen earlier hearlier
  · intro entry hentry
    rcases List.mem_append.mp hentry with hentry | hentry
    · exact hseen entry hentry
    · obtain rfl := List.mem_singleton.mp hentry
      exact ⟨hs, d, rfl⟩

/-- A state counts as seen when it was generated at the depth or at a smaller one. -/
theorem seenBy_eq_ok (hseen : Tidy seen) : (seenBy seen s d = .ok true ∧ ∃ e ≤ d, SeenAt seen s e) ∨
    (seenBy seen s d = .ok false ∧ ∀ e, SeenAt seen s e → d < e) := by
  unfold seenBy
  cases hlookup : seen.lookup s with
  | none => exact Or.inr ⟨rfl, fun e he => by cases hlookup.symm.trans he⟩
  | some c =>
      obtain ⟨entry, hentry, -, rfl⟩ := exists_of_lookup_eq_some hlookup
      obtain ⟨e, he⟩ := (hseen entry hentry).2
      rw [he] at hlookup ⊢
      dsimp only
      rw [Count.atMost_whole]
      by_cases hle : e ≤ d
      · rw [decide_eq_true (by exact_mod_cast hle)]
        exact Or.inl ⟨rfl, e, hle, hlookup⟩
      · rw [decide_eq_false (by exact_mod_cast hle)]
        refine Or.inr ⟨rfl, ?_⟩
        intro e' he'
        rw [SeenAt.depth_eq he' hlookup]
        exact not_le.mp hle

theorem exists_seenAt_of_seenBy (hseen : Tidy seen) (h : seenBy seen s d = .ok true) :
    ∃ e ≤ d, SeenAt seen s e := by
  rcases seenBy_eq_ok (s := s) (d := d) hseen with ⟨-, hexists⟩ | ⟨hfalse, -⟩
  · exact hexists
  · cases h.symm.trans hfalse

theorem lt_of_not_seenBy (hseen : Tidy seen) (h : seenBy seen s d = .ok false)
    (he : SeenAt seen s e) : d < e := by
  rcases seenBy_eq_ok (s := s) (d := d) hseen with ⟨htrue, -⟩ | ⟨-, hlt⟩
  · cases h.symm.trans htrue
  · exact hlt e he

/-- Least depths only decrease. -/
def Lowers (seen seen' : List (State × Count)) : Prop :=
  ∀ s d, SeenAt seen s d → ∃ e ≤ d, SeenAt seen' s e

theorem Lowers.refl (seen : List (State × Count)) : Lowers seen seen :=
  fun _ d h => ⟨d, le_rfl, h⟩

theorem Lowers.trans {seen'' : List (State × Count)} (h : Lowers seen seen')
    (h' : Lowers seen' seen'') :
    Lowers seen seen'' := by
  intro s d hs
  obtain ⟨e, he, hs⟩ := h s d hs
  obtain ⟨e', he', hs⟩ := h' s e hs
  exact ⟨e', he'.trans he, hs⟩

theorem lowers_recordDepth (hseen : Tidy seen) (hs : s.Proper) (h : seenBy seen s d = .ok false) :
    Lowers seen (recordDepth seen s (.whole d)) := by
  intro t e ht
  by_cases heq : t = s
  · subst heq
    exact ⟨d, (lt_of_not_seenBy hseen h ht).le, seenAt_recordDepth_self hs⟩
  · exact ⟨e, le_rfl, (lookup_recordDepth_of_ne hseen hs heq).trans ht⟩

theorem seenAt_recordDepth (hseen : Tidy seen) (hs : s.Proper)
    (h : SeenAt (recordDepth seen s (.whole d)) t e) : SeenAt seen t e ∨ (t = s ∧ e = d) := by
  by_cases heq : t = s
  · subst heq
    exact Or.inr ⟨rfl, h.depth_eq (seenAt_recordDepth_self hs)⟩
  · exact Or.inl ((lookup_recordDepth_of_ne hseen hs heq).symm.trans h)

/-- All of these states were generated at a depth or at smaller ones. -/
def SeenWithin (seen : List (State × Count)) (l : List (Action × State)) (d : Nat) : Prop :=
  ∀ successor ∈ l, ∃ e ≤ d, SeenAt seen successor.2 e

theorem SeenWithin.lowers {l : List (Action × State)} (h : SeenWithin seen l d) (hde : d ≤ e)
    (hlowers : Lowers seen seen') : SeenWithin seen' l e := by
  intro successor hmem
  obtain ⟨d', hd', hs⟩ := h successor hmem
  obtain ⟨e', he', hs⟩ := hlowers _ d' hs
  exact ⟨e', he'.trans (hd'.trans hde), hs⟩

/-! ## Policies that discard only hopeless nodes -/

/-- A policy keeps its memory valid, and with valid memory it discards a node only when the goal
cannot be reached from it. -/
structure Admissible (p : Problem) (policy : Policy M) (Valid : M → Prop) : Prop where
  choose : ∀ memory frontier, Valid memory → Valid (policy.choose memory frontier).memory
  prune : ∀ memory node search, Valid memory → Valid (policy.prune memory node search).memory
  hopeless : ∀ memory (node : Node) search, Valid memory → node.state.Proper →
    (policy.prune memory node search).answer = .ok true → p.Hopeless node.state

theorem admissible_of_keepAll (hkeep : policy.prune = keepAll) :
    Admissible p policy fun _ => True := by
  refine ⟨fun _ _ _ => trivial, fun _ _ _ _ => trivial, ?_⟩
  intro memory node search _ _ h
  rw [hkeep] at h
  cases h

/-! ## Looking at successors -/

section

variable {parent : Node} {memory memory' : M} {l : List (Action × State)} {new : List Node}

theorem Adds.valid (h : Adds policy parent seen memory l new seen' memory')
    (hpolicy : Admissible p policy Valid) (hmemory : Valid memory) : Valid memory' := by
  induction h with
  | nil => exact hmemory
  | known _ _ ih => exact ih hmemory
  | pruned _ hreply _ _ ih | kept _ hreply _ _ ih =>
      exact ih (hreply ▸ hpolicy.prune _ _ _ hmemory)

theorem Adds.tidy (h : Adds policy parent seen memory l new seen' memory') (hseen : Tidy seen)
    (hl : ∀ successor ∈ l, successor.2.Proper) : Tidy seen' := by
  induction h with
  | nil => exact hseen
  | known _ _ ih => exact ih hseen (List.forall_mem_cons.mp hl).2
  | pruned _ _ _ _ ih | kept _ _ _ _ ih =>
      obtain ⟨hs, hrest⟩ := List.forall_mem_cons.mp hl
      exact ih (hseen.recordDepth hs _) hrest

/-- All successors have been generated at most one deeper than their parent, and no least depth has
grown. -/
theorem Adds.lowers (h : Adds policy parent seen memory l new seen' memory') (hseen : Tidy seen)
    (hl : ∀ successor ∈ l, successor.2.Proper) :
    Lowers seen seen' ∧ SeenWithin seen' l (parent.depth + 1) := by
  induction h with
  | nil => exact ⟨.refl _, fun _ hmem => absurd hmem List.not_mem_nil⟩
  | known hknown _ ih =>
      obtain ⟨hlowers, hrest⟩ := ih hseen (List.forall_mem_cons.mp hl).2
      obtain ⟨e, he, hseenAt⟩ := exists_seenAt_of_seenBy (d := parent.depth + 1) hseen hknown
      obtain ⟨e', he', hseenAt⟩ := hlowers _ e hseenAt
      exact ⟨hlowers, List.forall_mem_cons.mpr ⟨⟨e', he'.trans he, hseenAt⟩, hrest⟩⟩
  | pruned hfresh _ _ _ ih | kept hfresh _ _ _ ih =>
      obtain ⟨hs, hrest⟩ := List.forall_mem_cons.mp hl
      obtain ⟨hlowers, hwithin⟩ := ih (hseen.recordDepth hs _) hrest
      exact ⟨(lowers_recordDepth hseen hs hfresh).trans hlowers,
        List.forall_mem_cons.mpr ⟨hlowers _ _ (seenAt_recordDepth_self hs), hwithin⟩⟩

/-- A depth that is noted belongs to a new node, unless the node has been discarded. -/
theorem Adds.origin_of (Dropped : State → Prop)
    (h : Adds policy parent seen memory l new seen' memory')
    (hvalid : ∀ memory node search, Valid memory → Valid (policy.prune memory node search).memory)
    (hdropped : ∀ memory (node : Node) search, Valid memory → node.state.Proper →
      (policy.prune memory node search).answer = .ok true → Dropped node.state)
    (hmemory : Valid memory) (hseen : Tidy seen) (hl : ∀ successor ∈ l, successor.2.Proper)
    (hs : SeenAt seen' s d) :
    SeenAt seen s d ∨ (∃ n ∈ new, n.state = s ∧ n.depth = d) ∨ Dropped s := by
  -- induction on the successors: the depth was noted for one of the later ones, or for the first,
  -- or before
  induction h with
  | nil => exact Or.inl hs
  | known _ _ ih => exact ih hmemory hseen (List.forall_mem_cons.mp hl).2 hs
  | @pruned _ _ _ _ a u _ _ step search _ _ hreply hpruned _ ih =>
      obtain ⟨hu, hrest⟩ := List.forall_mem_cons.mp hl
      rcases ih (hreply ▸ hvalid _ _ _ hmemory) (hseen.recordDepth hu _) hrest hs with
          hrecorded | hnew
      · rcases seenAt_recordDepth (d := parent.depth + 1) hseen hu hrecorded with
            hearlier | ⟨rfl, -⟩
        · exact Or.inl hearlier
        · exact Or.inr (Or.inr (hdropped _ _ _ hmemory hu (hreply ▸ hpruned)))
      · exact Or.inr hnew
  | @kept _ _ _ _ a u _ _ step search _ _ hreply _ _ ih =>
      obtain ⟨hu, hrest⟩ := List.forall_mem_cons.mp hl
      rcases ih (hreply ▸ hvalid _ _ _ hmemory) (hseen.recordDepth hu _) hrest hs with
        hrecorded | ⟨n, hn, hnode⟩ | hdrop
      · rcases seenAt_recordDepth (d := parent.depth + 1) hseen hu hrecorded with
          hearlier | ⟨rfl, rfl⟩
        · exact Or.inl hearlier
        · refine Or.inr (Or.inl ⟨_, List.mem_cons_self, rfl, ?_⟩)
          rw [Node.depth, List.length_append]
          rfl
      · exact Or.inr (Or.inl ⟨n, List.mem_cons_of_mem _ hn, hnode⟩)
      · exact Or.inr (Or.inr hdrop)

theorem Adds.origin (h : Adds policy parent seen memory l new seen' memory')
    (hpolicy : Admissible p policy Valid) (hmemory : Valid memory) (hseen : Tidy seen)
    (hl : ∀ successor ∈ l, successor.2.Proper) (hs : SeenAt seen' s d) :
    SeenAt seen s d ∨ (∃ n ∈ new, n.state = s ∧ n.depth = d) ∨ p.Hopeless s :=
  h.origin_of p.Hopeless hpolicy.prune hpolicy.hopeless hmemory hseen hl hs

end

/-! ## Coverage -/

/-- A state misses the goal, and above the bound its successors were generated at most one
deeper. -/
def Expanded (p : Problem) (b : Nat) (seen : List (State × Count)) (s : State) (d : Nat) : Prop :=
  p.reaches s = .ok false ∧
    (d < b → ∃ l, p.successors s = .ok l ∧ SeenWithin seen l (d + 1))

theorem Expanded.lowers (h : Expanded p b seen s d) (hlowers : Lowers seen seen') :
    Expanded p b seen' s d := by
  refine ⟨h.1, ?_⟩
  intro hd
  obtain ⟨l, hl, hwithin⟩ := h.2 hd
  exact ⟨l, hl, hwithin.lowers le_rfl hlowers⟩

/-- A state is still to be tested at a depth or a smaller one. -/
def Waiting (frontier : List Node) (s : State) (d : Nat) : Prop :=
  ∃ n ∈ frontier, n.state = s ∧ n.depth ≤ d

/-- Every state that was generated is waiting, hopeless or expanded. -/
structure Covered (p : Problem) (b : Nat) (search : Search) : Prop where
  tidy : Tidy search.seen
  start : SeenAt search.seen p.initialState 0
  covers : ∀ s d, SeenAt search.seen s d →
    Waiting search.frontier s d ∨ p.Hopeless s ∨ Expanded p b search.seen s d

theorem covered_start (hp : p.Proper) : Covered p b (start p.initialState) := by
  refine ⟨tidy_start hp.initialState, seenAt_start _, fun s d hs => ?_⟩
  obtain ⟨rfl, rfl⟩ := eq_of_seenAt_start hp.initialState hs
  exact Or.inl ⟨_, List.mem_singleton_self _, rfl, le_rfl⟩

/-- **Every step that continues keeps all states accounted for**, under any bound that is not larger
than its own. -/
theorem Covered.continues_of_le {c e : Nat} {search next : Search} {memory memory' : M}
    (h : Covered p c search) (hle : c ≤ b) (hp : p.Proper) (hsound : Sound p e search)
    (hpolicy : Admissible p policy Valid) (hmemory : Valid memory)
    (hstep : Continues p policy b (search, memory) (next, memory')) : Covered p c next := by
  cases hstep with
  | @cut _ _ _ node _ _ _ htakes hreaches hdepth =>
      refine ⟨h.tidy, h.start, ?_⟩
      intro s d hs
      rcases h.covers s d hs with ⟨n, hn, rfl, hd⟩ | hrest
      · rcases htakes.eq_or_mem hn with rfl | hn
        · have hcut := hle.trans (hdepth.trans hd)
          exact Or.inr (Or.inr ⟨hreaches, fun hlt => absurd hcut (not_le.mpr hlt)⟩)
        · exact Or.inl ⟨n, hn, rfl, hd⟩
      · exact Or.inr hrest
  | @expanded _ _ _ _ node _ _ _ _ l _ htakes hreaches hdepth hl hadds =>
      have hnode : node.state.Proper := (hsound.leads node htakes.mem).proper hp hp.initialState
      have hproper : ∀ successor ∈ l, successor.2.Proper := fun _ hmem => hp.successor hnode hl hmem
      obtain ⟨hlowers, hwithin⟩ := hadds.lowers h.tidy hproper
      refine ⟨hadds.tidy h.tidy hproper, ?_, ?_⟩
      · obtain ⟨e, he, hstart⟩ := hlowers _ 0 h.start
        obtain rfl := Nat.le_zero.mp he
        exact hstart
      · intro s d hs
        have hvalid := htakes.memory_eq ▸ hpolicy.choose _ _ hmemory
        rcases hadds.origin hpolicy hvalid h.tidy hproper hs with
            hearlier | ⟨n, hn, hstate, hd⟩ | hhopeless
        · rcases h.covers s d hearlier with ⟨n, hn, rfl, hd⟩ | hhopeless | hexpanded
          -- the node that was taken is expanded now, the others wait on
          · rcases htakes.eq_or_mem hn with rfl | hn
            · have hlater := hwithin.lowers (Nat.succ_le_succ hd) (.refl _)
              exact Or.inr (Or.inr ⟨hreaches, fun _ => ⟨l, hl, hlater⟩⟩)
            · exact Or.inl ⟨n, List.mem_append_left _ hn, rfl, hd⟩
          · exact Or.inr (Or.inl hhopeless)
          · exact Or.inr (Or.inr (hexpanded.lowers hlowers))
        · exact Or.inl ⟨n, List.mem_append_right _ hn, hstate, hd.le⟩
        · exact Or.inr (Or.inl hhopeless)

theorem Covered.continues {search next : Search} {memory memory' : M} (h : Covered p b search)
    (hp : p.Proper) (hsound : Sound p b search) (hpolicy : Admissible p policy Valid)
    (hmemory : Valid memory) (hstep : Continues p policy b (search, memory) (next, memory')) :
    Covered p b next :=
  h.continues_of_le le_rfl hp hsound hpolicy hmemory hstep

theorem Continues.valid {search next : Search} {memory memory' : M}
    (hstep : Continues p policy b (search, memory) (next, memory'))
    (hpolicy : Admissible p policy Valid) (hmemory : Valid memory) : Valid memory' := by
  cases hstep with
  | cut htakes => exact htakes.memory_eq ▸ hpolicy.choose _ _ hmemory
  | expanded htakes _ _ _ hadds =>
      exact hadds.valid hpolicy (htakes.memory_eq ▸ hpolicy.choose _ _ hmemory)

/-- **At every point of a run all states are accounted for.** -/
theorem covered_of_continues (hp : p.Proper) (hpolicy : Admissible p policy Valid) {last : Search}
    {memory memory' : M} (hmemory : Valid memory)
    (hsteps : Relation.ReflTransGen (Continues p policy b) (Search.start p.initialState, memory)
      (last, memory')) : Covered p b last := by
  have hinv := invariant_of_continues
    (fun search memory => Sound p b search ∧ Valid memory ∧ Covered p b search)
    (fun h hstep => ⟨h.1.continues hstep, hstep.valid hpolicy h.2.1,
      h.2.2.continues hp h.1 hpolicy h.2.1 hstep⟩)
    hsteps ⟨sound_start, hmemory, covered_start hp⟩
  exact hinv.2.2

/-- **On every path to the goal within the bound a node waits**, and from it the goal is reached
with no more actions in all than on the path. -/
theorem Covered.exists_waiting {search : Search} (h : Covered p b search) {as : List Action}
    (hpath : p.Leads s as t) (hs : SeenAt search.seen s d) (hlength : d + as.length ≤ b)
    (hgoal : p.reaches t = .ok true) : ∃ n ∈ search.frontier, ∃ rest, p.Leads n.state rest t ∧
      n.depth + rest.length ≤ d + as.length := by
  induction hpath generalizing d with
  | nil s =>
      rcases h.covers s d hs with ⟨n, hn, rfl, hd⟩ | hhopeless | hexpanded
      · exact ⟨n, hn, [], .nil _, Nat.add_le_add_right hd _⟩
      · exact absurd hgoal hhopeless.reaches_ne
      · cases hexpanded.1.symm.trans hgoal
  | @cons s u t a as l hl hmem hrest ih =>
      rcases h.covers s d hs with ⟨n, hn, rfl, hd⟩ | hhopeless | hexpanded
      · exact ⟨n, hn, a :: as, .cons hl hmem hrest, Nat.add_le_add_right hd _⟩
      · exact absurd hgoal (hhopeless (a :: as) t (.cons hl hmem hrest))
      · rw [List.length_cons] at hlength ⊢
        obtain ⟨l', hl', hwithin⟩ := hexpanded.2 (by omega)
        obtain rfl := Except.ok.inj (hl.symm.trans hl')
        obtain ⟨e, he, hu⟩ := hwithin (a, u) hmem
        obtain ⟨n, hn, rest, hleads, hshorter⟩ := ih hu (by omega) hgoal
        exact ⟨n, hn, rest, hleads, by omega⟩

/-- **A path does not reach the goal before it is as long as the nodes that wait are deep.** -/
theorem Covered.reaches_ne {search : Search} (h : Covered p b search) (limit : Nat)
    (hfrontier : ∀ n ∈ search.frontier, limit ≤ n.depth) (hlimit : limit ≤ b + 1) {as : List Action}
    (hpath : p.Leads s as t) (hs : SeenAt search.seen s d) (hlength : d + as.length < limit) :
    p.reaches t ≠ .ok true := by
  intro hgoal
  obtain ⟨n, hn, rest, -, hshorter⟩ := h.exists_waiting hpath hs (by omega) hgoal
  have hdeep := hfrontier n hn
  omega

end Search

end HornPlan
