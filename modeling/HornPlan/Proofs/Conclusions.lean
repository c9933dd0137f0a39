import HornPlan.Planner
import HornPlan.Proofs.Failures
import HornPlan.Proofs.Faults

/-!
# Runs that no limit cuts short

A run is cut short by a limit, or it comes to a conclusion: the search has halted, or a step has
failed (`runFor_cases`).  What it concludes does not depend on the limits: from one search and one
memory there is one conclusion (`Concludes.unique`).

With a policy that fails only where a grounding does (`Reliable`), the steps of a search for a
conjunction fail only there, too (`advance_failure`).  A conclusion without a failure is an empty
frontier or a goal node (`Concludes.ends`).
-/

namespace HornPlan

namespace Search

variable {p : Problem} {M : Type} {policy : Policy M} {Valid : M → Prop}
  {Fit : State → Prop} {b : Nat}

/-! ## Conclusions -/

/-- How a run ends that no limit cuts short: the search has halted, or a step of it fails. -/
inductive Concludes (p : Problem) (policy : Policy M) (bound : Option Count) (verbose : Bool) :
    Search → M → Search → Option Error → Prop
  | halted {search : Search} {memory : M} (h : search.halted = true) :
      Concludes p policy bound verbose search memory search none
  | failed {search : Search} {memory : M} {outcome : Outcome M} {e : Error}
      (hrunning : search.halted = false)
      (hstep : search.advance p policy bound verbose memory = outcome)
      (herror : outcome.error = some e) :
      Concludes p policy bound verbose search memory outcome.search (some e)
  | step {search final : Search} {memory : M} {outcome : Outcome M} {error : Option Error}
      (hrunning : search.halted = false)
      (hstep : search.advance p policy bound verbose memory = outcome)
      (herror : outcome.error = none)
      (hrest : Concludes p policy bound verbose outcome.search outcome.memory final error) :
      Concludes p policy bound verbose search memory final error

/-- **There is one conclusion**, whatever the limits of a run. -/
theorem Concludes.unique {bound : Option Count} {verbose : Bool} {search final final' : Search}
    {memory : M} {error error' : Option Error}
    (h : Concludes p policy bound verbose search memory final error)
    (h' : Concludes p policy bound verbose search memory final' error') :
    final = final' ∧ error = error' := by
  induction h with
  | halted h =>
      cases h' with
      | halted => exact ⟨rfl, rfl⟩
      | failed hrunning => cases hrunning.symm.trans h
      | step hrunning => cases hrunning.symm.trans h
  | failed hrunning hstep herror =>
      cases h' with
      | halted h => cases hrunning.symm.trans h
      | failed _ hstep' herror' =>
          subst hstep hstep'
          exact ⟨rfl, herror.symm.trans herror'⟩
      | step _ hstep' herror' =>
          subst hstep hstep'
          cases herror.symm.trans herror'
  | step hrunning hstep herror _ ih =>
      cases h' with
      | halted h => cases hrunning.symm.trans h
      | failed _ hstep' herror' =>
          subst hstep hstep'
          cases herror.symm.trans herror'
      | step _ hstep' _ hrest' =>
          subst hstep hstep'
          exact ih hrest'

/-- A limit cuts a run short: the nodes run out, or the time. -/
inductive CutShort : Search → Prop
  | nodes {search : Search} (h : search.Running) : CutShort search
  | time {search : Search} (h : search.Running) : CutShort (search.halt .timeLimitExceeded)

/-- A run that takes no further step has halted, has nothing left to do, or has run out of nodes. -/
theorem finish_cases {verbose : Bool} {search : Search} {memory : M} {printed : String}
    {checkpoint : Option Search} {run : RunOutcome M} (h : search.halted = true ∨ search.Running)
    (hrun : search.finish memory printed checkpoint = run) :
    (run.error = none ∧ CutShort run.search) ∨
      Concludes p policy (some (.whole b)) verbose search memory run.search run.error := by
  subst hrun
  rcases h with hhalted | hrunning
  · rw [finish, hhalted]
    exact Or.inr (.halted hhalted)
  · rw [finish, hrunning.halted]
    by_cases hempty : search.frontier = []
    · rw [hempty]
      have hstep : search.advance p policy (some (.whole b)) verbose memory
          = ⟨search.halt .frontierEmpty, memory, "", none⟩ := by
        rw [advance, hempty]
        rfl
      exact Or.inr (.step hrunning.halted hstep rfl (.halted rfl))
    · rw [List.isEmpty_eq_false_iff.mpr hempty]
      exact Or.inl ⟨rfl, .nodes hrunning⟩

theorem stopCause?_of_time (maxNodes : Count) (late : Nat → Bool) (reading : Nat)
    (search : Search) :
    stopCause? ⟨maxNodes, fun n => .ok (late n), fun _ => .ok false⟩ reading search
      = .ok (if late reading then some .timeLimitExceeded else none) := by
  cases hlate : late reading <;> simp [stopCause?, hlate] <;> rfl

/-- **A run is cut short by a limit, or it comes to a conclusion.** -/
theorem runFor_cases {maxNodes : Int} {late : Nat → Bool} {verbose : Bool} {rounds reading : Nat}
    {search : Search} {memory : M} {printed : String} {checkpoint : Option Search}
    {run : RunOutcome M} (h : search.halted = true ∨ search.Running) (hregular : search.Regular)
    (hrun : search.runFor p policy (some (.whole b)) verbose
      ⟨.whole maxNodes, fun n => .ok (late n), fun _ => .ok false⟩ rounds reading memory
      printed checkpoint
        = run) :
    (run.error = none ∧ CutShort run.search) ∨
      Concludes p policy (some (.whole b)) verbose search memory run.search run.error := by
  -- too few rounds, the limit and the clock cut a run short; otherwise its next step decides
  induction rounds generalizing reading search memory printed checkpoint with
  | zero => exact finish_cases h hrun
  | succ rounds ih =>
      obtain ⟨n, hn⟩ := hregular.step
      rw [runFor, hn, Count.below_whole] at hrun
      by_cases hbelow : n < maxNodes
      · rw [decide_eq_true hbelow] at hrun
        dsimp only at hrun
        rcases h with hhalted | hrunning
        · rw [if_pos hhalted] at hrun
          exact finish_cases (Or.inl hhalted) hrun
        · rw [hrunning.halted, if_neg Bool.false_ne_true, stopCause?_of_time] at hrun
          cases hlate : late reading with
          | true =>
              rw [hlate] at hrun
              subst hrun
              exact Or.inl ⟨rfl, .time hrunning⟩
          | false =>
              rw [hlate] at hrun
              simp only [Bool.false_eq_true, if_false] at hrun
              split at hrun
              · rename_i e herror
                subst hrun
                dsimp only
                rw [herror]
                exact Or.inr (.failed hrunning.halted rfl herror)
              · rename_i herror
                have hnext :
                    (search.advance p policy (some (.whole b)) verbose memory).search.halted = true
                    ∨ (search.advance p policy (some (.whole b)) verbose
                      memory).search.Running := by
                  rcases advance_cases rfl herror with ⟨-, hhalt⟩ | hfinds | hcontinues
                  · exact Or.inl (by rw [hhalt]; rfl)
                  · exact Or.inl hfinds.halted
                  · exact Or.inr (hrunning.continues hcontinues)
                exact (ih hnext hregular.advance hrun).imp_right (.step hrunning.halted rfl herror)
      · rw [decide_eq_false hbelow] at hrun
        exact finish_cases h hrun

theorem continues_of_advance {search : Search} {memory : M} {verbose : Bool} {outcome : Outcome M}
    (hstep : search.advance p policy (some (.whole b)) verbose memory = outcome)
    (herror : outcome.error = none) (hrunning : outcome.search.halted = false) :
    Continues p policy b (search, memory) (outcome.search, outcome.memory) := by
  rcases advance_cases hstep herror with ⟨-, hhalt⟩ | hfinds | hcontinues
  · rw [hhalt] at hrunning
    cases hrunning
  · cases hfinds.halted.symm.trans hrunning
  · exact hcontinues

/-! ## Ends without a failure -/

theorem Concludes.of_halted {bound : Option Count} {verbose : Bool} {search final : Search}
    {memory : M} {error : Option Error}
    (h : Concludes p policy bound verbose search memory final error)
    (hhalted : search.halted = true) : final = search ∧ error = none :=
  h.unique (.halted hhalted)

/-- **A conclusion without a failure is an empty frontier or a goal node.** -/
theorem Concludes.ends {verbose : Bool} {search final : Search} {memory : M} {error : Option Error}
    (h : Concludes p policy (some (.whole b)) verbose search memory final error)
    (herror : error = none) (hrunning : search.Running) :
    ∃ last memory', Relation.ReflTransGen (Continues p policy b) (search, memory) (last, memory') ∧
      ((last.frontier = [] ∧ final = last.halt .frontierEmpty) ∨
      Finds p policy last memory' final) := by
  induction h with
  | halted hhalted => cases hhalted.symm.trans hrunning.halted
  | failed => cases herror
  | @step search final memory outcome error _ hstep hnone hrest ih =>
      rcases advance_cases hstep hnone with ⟨hempty, hhalt⟩ | hfinds | hcontinues
      · obtain ⟨rfl, -⟩ := hrest.of_halted (by rw [hhalt]; rfl)
        exact ⟨search, memory, .refl, Or.inl ⟨hempty, hhalt⟩⟩
      · obtain ⟨rfl, -⟩ := hrest.of_halted hfinds.halted
        exact ⟨search, memory, .refl, Or.inr hfinds⟩
      · obtain ⟨last, memory', hsteps, hends⟩ := ih herror (hrunning.continues hcontinues)
        exact ⟨last, memory', .head hcontinues hsteps, hends⟩

/-! ## Failures -/

/-- A policy takes a node of the frontier, and it fails only where a grounding does that a node
leads to, provided that the nodes on the frontier are fit for it.  It keeps no other nodes. -/
structure Reliable (p : Problem) (policy : Policy M) (Valid : M → Prop)
    (Fit : State → Prop) : Prop where
  lt_length : ∀ {memory frontier index}, Valid memory → frontier ≠ [] →
    (∀ n ∈ frontier, n.state.Proper) → (policy.choose memory frontier).answer = .ok index →
    index < frontier.length
  choose : ∀ {memory frontier e}, Valid memory → (∀ n ∈ frontier, n.state.Proper ∧ Fit n.state) →
    (policy.choose memory frontier).answer = .error e → ∃ n ∈ frontier, p.FailsFrom n.state e
  prune : ∀ {memory} {node : Node} {search e}, Valid memory → node.state.Proper →
    (policy.prune memory node search).answer = .error e → p.FailsFrom node.state e
  keep : ∀ {memory} {node : Node} {search}, Valid memory → node.state.Proper →
    (policy.prune memory node search).answer = .ok false → Fit node.state

/-- What holds at every point of a run: the search is sound and has not halted, what it has
generated is tidy, the memory is valid, and the nodes on the frontier are fit. -/
structure Poised (p : Problem) (Valid : M → Prop) (Fit : State → Prop) (b : Nat) (search : Search)
    (memory : M) : Prop where
  sound : Sound p b search
  running : search.Running
  tidy : Tidy search.seen
  valid : Valid memory
  fit : ∀ n ∈ search.frontier, Fit n.state

section

variable {search : Search} {memory : M} {verbose : Bool} {printed : String}
  {node : Node} {e : Error}

theorem Adds.fit {parent : Node} {seen seen' : List (State × Count)} {memory' : M}
    {l : List (Action × State)} {new : List Node}
    (h : Adds policy parent seen memory l new seen' memory') (hpolicy : Admissible p policy Valid)
    (hreliable : Reliable p policy Valid Fit) (hmemory : Valid memory)
    (hl : ∀ successor ∈ l, successor.2.Proper) : ∀ n ∈ new, Fit n.state := by
  induction h with
  | nil => exact fun n hn => absurd hn List.not_mem_nil
  | known _ _ ih => exact ih hmemory (List.forall_mem_cons.mp hl).2
  | pruned _ hreply _ _ ih =>
      exact ih (hreply ▸ hpolicy.prune _ _ _ hmemory) (List.forall_mem_cons.mp hl).2
  | kept _ hreply hkept _ ih =>
      obtain ⟨hs, hrest⟩ := List.forall_mem_cons.mp hl
      exact List.forall_mem_cons.mpr ⟨hreliable.keep hmemory hs (hreply ▸ hkept),
        ih (hreply ▸ hpolicy.prune _ _ _ hmemory) hrest⟩

theorem poised_start (hp : p.Proper) (hmemory : Valid memory) (hfit : Fit p.initialState) :
    Poised p Valid Fit b (start p.initialState) memory := by
  refine ⟨sound_start, running_start _, (covered_start (b := b) hp).tidy, hmemory, ?_⟩
  intro n hn
  obtain rfl := List.mem_singleton.mp hn
  exact hfit

theorem Poised.proper (hp : p.Proper) (h : Poised p Valid Fit b search memory) {n : Node}
    (hn : n ∈ search.frontier) : n.state.Proper :=
  (h.sound.leads n hn).proper hp hp.initialState

theorem Poised.wellFormed (hp : p.Proper) (h : Poised p Valid Fit b search memory)
    (hregular : search.Regular) :
    search.WellFormed :=
  ⟨fun n hn => ⟨h.proper hp hn, (h.sound.leads n hn).isPrintable hp hp.initialState⟩,
    h.tidy, hregular⟩

/-- A step keeps a search poised under any bound that is not smaller than its own. -/
theorem Poised.continues_of_le {c : Nat} (hp : p.Proper) (hpolicy : Admissible p policy Valid)
    (hreliable : Reliable p policy Valid Fit) (h : Poised p Valid Fit c search memory) (hle : b ≤ c)
    {next : Search} {memory' : M} (hstep : Continues p policy b (search, memory) (next, memory')) :
    Poised p Valid Fit c next memory' := by
  have hsound := h.sound.continues_of_le hle hstep
  have hrunning := h.running.continues hstep
  have hvalid := hstep.valid hpolicy h.valid
  cases hstep with
  | cut htakes => exact ⟨hsound, hrunning, h.tidy, hvalid, fun n hn => h.fit n (htakes.subset hn)⟩
  | @expanded _ _ _ _ _ _ _ _ _ l _ htakes _ _ hl hadds =>
      have hnode := h.proper hp htakes.mem
      have hproper : ∀ successor ∈ l, successor.2.Proper := fun _ hmem => hp.successor hnode hl hmem
      refine ⟨hsound, hrunning, hadds.tidy h.tidy hproper, hvalid, ?_⟩
      intro n hn
      rcases List.mem_append.mp hn with hn | hn
      · exact h.fit n (htakes.subset hn)
      · exact hadds.fit hpolicy hreliable (htakes.memory_eq ▸ hpolicy.choose _ _ h.valid)
          hproper n hn

theorem Poised.continues (hp : p.Proper) (hpolicy : Admissible p policy Valid)
    (hreliable : Reliable p policy Valid Fit) (h : Poised p Valid Fit b search memory)
    {next : Search} {memory' : M} (hstep : Continues p policy b (search, memory) (next, memory')) :
    Poised p Valid Fit b next memory' :=
  h.continues_of_le hp hpolicy hreliable le_rfl hstep

/-- **A step of a search for a goal that is always decided fails only where a grounding does**,
whatever the bound. -/
theorem advance_failure {c : Nat} (hp : p.Proper) (hpolicy : Admissible p policy Valid)
    (hreliable : Reliable p policy Valid Fit)
    (hdecided : ∀ s : State, s.Proper → ∃ reached, p.reaches s = .ok reached)
    (hpoised : Poised p Valid Fit c search memory) (hregular : search.Regular)
    (h : (search.advance p policy (some (.whole b)) verbose memory).error = some e) :
    p.FailsFrom p.initialState e := by
  have hproper : ∀ n ∈ search.frontier, n.state.Proper := fun n hn => hpoised.proper hp hn
  have hstep : search.advance p policy ((some (b : Int)).map .whole) verbose memory
      = search.advance p policy (some (.whole b)) verbose memory := rfl
  obtain ⟨left, hfault⟩ : ∃ left, Fault p policy (some (.whole b)) search memory e left :=
    ⟨_, (hpoised.wellFormed hp hregular).advance_fault hp hstep h⟩
  -- the goal is always decided, and what is asked of the policy fails only where a grounding does
  cases hfault with
  | choosing hchosen =>
      obtain ⟨n, hn, hfails⟩ :=
        hreliable.choose hpoised.valid (fun n hn => ⟨hproper n hn, hpoised.fit n hn⟩)
        hchosen
      exact hfails.of_explores (hpoised.sound.leads n hn).explores
  | naming hnonempty hchosen hnone _ =>
      have hlt := hreliable.lt_length hpoised.valid hnonempty hproper hchosen
      rw [List.getElem?_eq_getElem hlt] at hnone
      cases hnone
  | @testing node _ _ _ htakes _ hreaches =>
      obtain ⟨reached, hreached⟩ := hdecided node.state (hproper node htakes.mem)
      cases hreaches.symm.trans hreached
  | @expanding node _ _ _ htakes _ _ _ hl =>
      have hfails := Problem.Proper.failsFrom_of_successors (hproper node htakes.mem) hl
      exact hfails.of_explores (hpoised.sound.leads node htakes.mem).explores
  | @discarding node _ _ _ before after a s _ _ _ htakes _ _ _ hl hadds _ hprune =>
      have hmem : (a, s) ∈ before ++ (a, s) :: after := List.mem_append_right _ List.mem_cons_self
      have hvalid := hadds.valid hpolicy (htakes.memory_eq ▸ hpolicy.choose _ _ hpoised.valid)
      have hs : s.Proper := hp.successor (hproper node htakes.mem) hl hmem
      have hfails : p.FailsFrom node.state e :=
        (hreliable.prune hvalid hs hprune).of_explores (.single (.successor hl hmem))
      exact hfails.of_explores (hpoised.sound.leads node htakes.mem).explores

/-- **A run that comes to a conclusion fails only where a grounding does**, whatever the bounds
before. -/
theorem Concludes.failure {c : Nat} (hp : p.Proper) (hpolicy : Admissible p policy Valid)
    (hreliable : Reliable p policy Valid Fit)
    (hdecided : ∀ s : State, s.Proper → ∃ reached, p.reaches s = .ok reached)
    {final : Search} {error : Option Error}
    (h : Concludes p policy (some (.whole b)) verbose search memory final error)
    (hpoised : Poised p Valid Fit c search memory) (hle : b ≤ c) (hregular : search.Regular)
    (herror : error = some e) : p.FailsFrom p.initialState e := by
  induction h with
  | halted => cases herror
  | failed _ hstep hfailed =>
      subst hstep
      exact advance_failure hp hpolicy hreliable hdecided hpoised hregular (hfailed.trans herror)
  | @step search _ memory outcome _ _ hstep hnone hrest ih =>
      cases hhalted : outcome.search.halted with
      | true => cases (hrest.of_halted hhalted).2.symm.trans herror
      | false =>
          have hcontinues := continues_of_advance hstep hnone hhalted
          exact ih (hpoised.continues_of_le hp hpolicy hreliable hle hcontinues)
            (hstep ▸ hregular.advance) herror

end

end Search

end HornPlan
