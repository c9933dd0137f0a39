import HornPlan.Proofs.LeastCost
import HornPlan.Proofs.Mirrors

/-!
# Policies that take the oldest node

A policy that takes the first node of every ordered frontier and discards none mirrors breadth first
there (`OldestFirst.mirrors`).  So it steps as breadth first does (`advance_agrees`), and its runs
come to the conclusions of breadth first (`Concludes.oldest`).

A\* is such a policy for a goal that is a test, since every estimate is zero then and the frontier
stays ordered (`oldestFirst_leastCost`).
-/

namespace HornPlan

namespace Search

variable {p : Problem} {M : Type} {policy : Policy M} {Valid : M → Prop} {b : Nat}

/-- With valid memory a policy takes the first node of an ordered frontier, and it discards none. -/
structure OldestFirst (policy : Policy M) (Valid : M → Prop) : Prop where
  choose : ∀ {memory frontier}, Valid memory → Ordered frontier → frontier ≠ [] →
    (policy.choose memory frontier).answer = .ok 0
  keep : ∀ {memory node search}, Valid memory → (policy.prune memory node search).answer = .ok false

theorem OldestFirst.mirrors (holdest : OldestFirst policy Valid)
    (hpolicy : Admissible p policy Valid) :
    Mirrors policy Policy.oldest (fun memory _ => Valid memory) Ordered := by
  refine ⟨?_, ?_⟩
  · intro memory _ frontier hmemory hordered hnonempty
    exact ⟨holdest.choose hmemory hordered hnonempty, hpolicy.choose memory frontier hmemory⟩
  · intro memory _ node search hmemory _
    exact ⟨holdest.keep hmemory, hpolicy.prune memory node search hmemory⟩

/-- **A step does what a step of breadth first does.** -/
theorem advance_agrees (hp : p.Proper) (hpolicy : Admissible p policy Valid)
    (holdest : OldestFirst policy Valid) {search : Search} {memory : M} {verbose : Bool}
    (hsound : Sound p b search) (hordered : Ordered search.frontier) (hmemory : Valid memory) :
    Agrees (fun memory _ => Valid memory) (search.advance p policy (some (.whole b)) verbose memory)
      (search.advance p Policy.oldest (some (.whole b)) false ()) := by
  refine (holdest.mirrors hpolicy).advance hp hordered ?_ hmemory
  intro n hn
  have hleads := hsound.leads n hn
  exact ⟨hleads.proper hp hp.initialState, hleads.isPrintable hp hp.initialState⟩

/-- **A run comes to the conclusion of breadth first.** -/
theorem Concludes.oldest (hp : p.Proper) (hpolicy : Admissible p policy Valid)
    (holdest : OldestFirst policy Valid) {verbose : Bool} {search final : Search} {memory : M}
    {error : Option Error}
    (h : Concludes p policy (some (.whole b)) verbose search memory final error)
    (hsound : Sound p b search) (hordered : Ordered search.frontier) (hmemory : Valid memory) :
    Concludes p Policy.oldest (some (.whole b)) false search () final error := by
  induction h with
  | halted h => exact .halted h
  | @failed search memory outcome _ hrunning hstep herror =>
      have hagrees : Agrees (fun memory _ => Valid memory) outcome
          (search.advance p Policy.oldest (some (.whole b)) false ()) :=
        hstep ▸ advance_agrees hp hpolicy holdest hsound hordered hmemory
      rw [hagrees.search]
      exact .failed hrunning rfl (hagrees.error ▸ herror)
  | @step search final memory outcome error hrunning hstep herror hrest ih =>
      have hagrees : Agrees (fun memory _ => Valid memory) outcome
          (search.advance p Policy.oldest (some (.whole b)) false ()) :=
        hstep ▸ advance_agrees hp hpolicy holdest hsound hordered hmemory
      have hnone := hagrees.error ▸ herror
      refine .step hrunning rfl hnone ?_
      rw [← hagrees.search]
      -- a step that halts the search is the last one, and after any other both go on alike
      cases hhalted : outcome.search.halted with
      | true =>
          obtain ⟨rfl, rfl⟩ := hrest.of_halted hhalted
          exact .halted hhalted
      | false =>
          have hcontinues := continues_of_advance hstep herror hhalted
          have hcontinues' : Continues p Policy.oldest b (search, ()) (outcome.search, ()) := by
            rw [hagrees.search] at hhalted ⊢
            exact continues_of_advance rfl hnone hhalted
          exact ih (hsound.continues hcontinues) (hordered.continues hcontinues')
            (hcontinues.valid hpolicy hmemory)

theorem oldestFirst_oldest : OldestFirst Policy.oldest fun _ => True :=
  ⟨fun _ _ _ => rfl, fun _ => rfl⟩

end Search

/-! ## A\* with a test for its goal -/

variable {p : Problem} {passes : State → Except Error Bool} {known : Estimates}

/-- Where the goal is a test, every estimate is zero. -/
theorem Estimates.Valid.get_of_test (hgoal : p.goal = .test passes) (h : known.Valid p)
    (s : State) :
    (Estimates.get p known s).1 = .ok (some 0) := by
  have hestimate : ∀ t, p.estimate t = .ok (some 0) := by
    intro t
    rw [Problem.estimate, hgoal]
  unfold Estimates.get
  split
  · rename_i estimate hlookup
    obtain ⟨entry, hentry, -, rfl⟩ := exists_of_lookup_eq_some hlookup
    exact (h _ entry.1 entry.2 hentry).symm.trans (hestimate entry.1)
  · rw [hestimate]

theorem leastCost_cons_of_test (hgoal : p.goal = .test passes) (h : known.Valid p) (place : Nat)
    (best : Option (Nat × Nat)) (node : Node) (rest : List Node) :
    ∃ next, next.Valid p ∧ leastCost p place best known (node :: rest)
      = leastCost p (place + 1) (better best place node.depth) next rest :=
  ⟨_, h.get node.state, leastCost_cons (Prod.ext (h.get_of_test hgoal node.state) rfl)⟩

/-- The first node stays the best where no later one is less deep. -/
theorem leastCost_of_test (hgoal : p.goal = .test passes) (h : known.Valid p) {nodes : List Node}
    {place first least : Nat} (hnodes : ∀ n ∈ nodes, least ≤ n.depth) :
    (leastCost p place (some (first, least)) known nodes).answer = .ok first := by
  induction nodes generalizing known place with
  | nil => rfl
  | cons node rest ih =>
      obtain ⟨hnode, hrest⟩ := List.forall_mem_cons.mp hnodes
      obtain ⟨next, hvalid, hnext⟩ :=
        leastCost_cons_of_test hgoal h place (some (first, least)) node rest
      have hbetter : better (some (first, least)) place node.depth = some (first, least) :=
        if_neg (not_lt.mpr hnode)
      rw [hnext, hbetter]
      exact ih hvalid hrest

/-- **A\* takes the oldest node where the goal is a test.** -/
theorem oldestFirst_leastCost (hgoal : p.goal = .test passes) :
    Search.OldestFirst (Policy.leastCost p) (Estimates.Valid p) := by
  refine ⟨?_, ?_⟩
  · intro known frontier h hordered hnonempty
    obtain ⟨node, rest, rfl⟩ := List.exists_cons_of_ne_nil hnonempty
    have hdeeper : ∀ n ∈ rest, node.depth ≤ n.depth := fun n hn =>
      ((List.pairwise_cons.mp hordered).1 n hn).1
    obtain ⟨next, hvalid, hnext⟩ := leastCost_cons_of_test hgoal h 0 none node rest
    change (leastCost p 0 none known (node :: rest)).answer = .ok 0
    rw [hnext]
    exact leastCost_of_test hgoal hvalid hdeeper
  · intro known node _ h
    change (Estimates.get p known node.state).1.map (·.isNone) = .ok false
    rw [h.get_of_test hgoal]
    rfl

end HornPlan
