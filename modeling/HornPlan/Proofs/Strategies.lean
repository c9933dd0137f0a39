import HornPlan.Proofs.Coverage

/-!
# What the strategies keep

The strategies discard only hopeless nodes (`Offered.admissible`).  A* alone discards nodes at all:
it remembers the estimates it has computed, each of them is the estimate of its state
(`Estimates.Valid`), and a state without one is hopeless.

With the oldest node taken first the depths on the frontier never decrease, and never differ by more
than one (`Ordered`).
-/

namespace HornPlan

variable {p : Problem}

/-! ## Estimates -/

namespace Estimates

/-- The estimates that are remembered are those of their states. -/
def Valid (p : Problem) (known : Estimates) : Prop :=
  ∀ fingerprint s estimate, (s, estimate) ∈ known.sharing fingerprint → p.estimate s = .ok estimate

variable {known : Estimates} {s : State}

theorem valid_empty : Valid p ∅ := by
  intro fingerprint s estimate hmem
  rw [sharing, Std.TreeMap.getD_emptyc] at hmem
  cases hmem

theorem Valid.remember (h : known.Valid p) {estimate : Option Nat}
    (hs : p.estimate s = .ok estimate) :
    (known.remember s estimate).Valid p := by
  intro fingerprint t other hmem
  rw [sharing, Estimates.remember, Std.TreeMap.getD_insert] at hmem
  split at hmem
  · rcases List.mem_cons.mp hmem with heq | hmem
    · obtain ⟨rfl, rfl⟩ := Prod.mk.inj heq
      exact hs
    · exact h _ t other hmem
  · exact h _ t other hmem

theorem Valid.get (h : known.Valid p) (s : State) : (Estimates.get p known s).2.Valid p := by
  unfold Estimates.get
  split
  · exact h
  · split
    · rename_i hestimate
      exact h.remember hestimate
    · exact h

theorem Valid.get_eq (h : known.Valid p) (hs : s.Proper) :
    (Estimates.get p known s).1 = p.estimate s := by
  unfold Estimates.get
  split
  · rename_i estimate hlookup
    obtain ⟨entry, hentry, heq, rfl⟩ := exists_of_lookup_eq_some hlookup
    rw [State.eq_of_beq (Or.inl hs) heq]
    exact (h _ entry.1 entry.2 hentry).symm
  · split
    · rename_i hestimate
      exact hestimate.symm
    · rename_i hestimate
      exact hestimate.symm

end Estimates

theorem valid_leastCost {known : Estimates} (h : known.Valid p) (nodes : List Node) (place : Nat)
    (best : Option (Nat × Nat)) : (leastCost p place best known nodes).memory.Valid p := by
  induction nodes generalizing known place best with
  | nil => exact h
  | cons node rest ih =>
      have hget := h.get node.state
      rw [leastCost]
      split
      · rename_i heq
        rw [heq] at hget
        exact hget
      · rename_i heq
        rw [heq] at hget
        exact hget
      · rename_i heq
        rw [heq] at hget
        exact ih hget _ _

/-- **A\* discards only hopeless nodes.** -/
theorem Problem.Proper.admissible_leastCost (hp : p.Proper) :
    Search.Admissible p (Policy.leastCost p) (Estimates.Valid p) := by
  refine ⟨fun known frontier h => valid_leastCost h frontier 0 none,
    fun known node _ h => h.get node.state, ?_⟩
  intro known node _ h hnode hanswer
  replace hanswer : (Estimates.get p known node.state).1.map (·.isNone) = .ok true := hanswer
  rw [h.get_eq hnode] at hanswer
  refine hp.hopeless_of_estimate_eq_none hnode ?_
  cases hestimate : p.estimate node.state with
  | error error =>
      rw [hestimate] at hanswer
      cases hanswer
  | ok estimate =>
      rw [hestimate] at hanswer
      rw [Option.isNone_iff_eq_none.mp (Except.ok.inj hanswer)]

/-! ## The strategies on offer -/

/-- What a caller can ask for: a strategy by its name, or a choice of the caller's own, which
discards nothing. -/
inductive Offered (p : Problem) : Strategy → Prop
  | named (name : StrategyName) (lines : List String) : Offered p (name.strategy p lines)
  | choice {M : Type} (memory : M) (policy : Policy M) (hkeep : policy.prune = keepAll) :
      Offered p ⟨M, memory, policy⟩

/-- **The strategies on offer discard only hopeless nodes.** -/
theorem Offered.admissible (hp : p.Proper) {strategy : Strategy} (h : Offered p strategy) :
    ∃ Valid : strategy.Memory → Prop, Valid strategy.memory ∧
      Search.Admissible p strategy.policy Valid := by
  cases h with
  | named name lines =>
      cases name with
      | breadthFirst => exact ⟨_, trivial, Search.admissible_of_keepAll rfl⟩
      | depthFirst => exact ⟨_, trivial, Search.admissible_of_keepAll rfl⟩
      | astar => exact ⟨_, Estimates.valid_empty, hp.admissible_leastCost⟩
      | interactive => exact ⟨_, trivial, Search.admissible_of_keepAll rfl⟩
  | choice memory policy hkeep => exact ⟨_, trivial, Search.admissible_of_keepAll hkeep⟩

/-! ## The oldest node first -/

namespace Search

variable {b : Nat}

/-- The depths on a frontier never decrease and never differ by more than one. -/
def Ordered (frontier : List Node) : Prop :=
  frontier.Pairwise fun n m => n.depth ≤ m.depth ∧ m.depth ≤ n.depth + 1

theorem ordered_start (s : State) : Ordered (start s).frontier :=
  List.pairwise_singleton _ _

theorem Takes.eq_cons {memory memory' : Unit} {frontier rest : List Node} {node : Node}
    (h : Takes Policy.oldest memory frontier node rest memory') : frontier = node :: rest := by
  obtain ⟨index, hindex, hnode, rfl⟩ := h.chosen
  obtain rfl := Except.ok.inj hindex
  cases frontier with
  | nil => cases hnode
  | cons n rest =>
      obtain rfl := Option.some.inj hnode
      rfl

theorem Ordered.advance {node : Node} {rest new : List Node} (h : Ordered (node :: rest))
    (hnew : ∀ n ∈ new, n.depth = node.depth + 1) : Ordered (rest ++ new) := by
  obtain ⟨hnode, hrest⟩ := List.pairwise_cons.mp h
  refine List.pairwise_append.mpr ⟨hrest, ?_, ?_⟩
  · refine List.pairwise_of_forall_mem_list ?_
    intro n hn m hm
    rw [hnew n hn, hnew m hm]
    omega
  · intro n hn m hm
    obtain ⟨hle, hge⟩ := hnode n hn
    rw [hnew m hm]
    omega

theorem Ordered.continues {search next : Search} {memory memory' : Unit}
    (h : Ordered search.frontier) (hstep : Continues p Policy.oldest b (search, memory)
      (next, memory')) : Ordered next.frontier := by
  cases hstep with
  | cut htakes =>
      rw [htakes.eq_cons] at h
      exact (List.pairwise_cons.mp h).2
  | @expanded _ _ _ _ node _ _ _ _ _ _ htakes _ _ _ hadds =>
      rw [htakes.eq_cons] at h
      exact h.advance fun n hn => hadds.depth_eq hn

theorem Ordered.depth_le {memory memory' : Unit} {frontier rest : List Node} {node : Node}
    (h : Ordered frontier) (htakes : Takes Policy.oldest memory frontier node rest memory')
    {n : Node} (hn : n ∈ frontier) : node.depth ≤ n.depth := by
  rcases htakes.eq_or_mem hn with rfl | hmem
  · exact le_rfl
  · rw [htakes.eq_cons] at h
    exact ((List.pairwise_cons.mp h).1 n hmem).1

end Search

end HornPlan
