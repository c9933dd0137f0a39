import HornPlan.Proofs.Checkpoints
import HornPlan.Proofs.Mirrors

/-!
# What a run comes to

The loop counts rounds and looks at the clock before each of them.  `RunsTo` says how a run ends
that nothing but a limit on the nodes can stop, and does without the rounds: the search rests, or a
step fails.  It ends in one way (`RunsTo.unique`).  An empty frontier may be found by a step or
after the last one; both leave the search `atRest`.

With a clock there is one more way.  The time is up at a point on the way, which `Goes` leads to,
and the search is that of the steps before with the mark of halting (`runFor_ends`).  Where the time
is never up, the run comes to its end (`runsTo_runFor`).

A run up to one limit, and a run from where it ended up to a higher one, are one run
(`RunsTo.resume`).  What a heuristic remembers is lost with the interruption, which does no harm to
a policy that is `Forgetful`.
-/

namespace HornPlan

namespace Search

variable {p : Problem} {M : Type} {policy : Policy M} {search : Search} {memory : M}
  {bound : Option Count} {verbose : Bool} {printed : String}

/-! ## What a step leaves as it is -/

/-- Every step leaves the initial state as it is.  One that takes a node is counted, unless it fails
before that. -/
theorem advance_spec {outcome : Outcome M}
    (h : search.advance p policy bound verbose memory = outcome) :
    outcome.search.initialState = search.initialState ∧
      (search.step.next = .ok outcome.search.step ∨
        outcome.search.step = search.step ∧ (outcome.error = none → search.frontier = [])) := by
  obtain ⟨next, memory', printed, error⟩ := outcome
  cases leaves_of_advance h with
  | untouched e => exact ⟨rfl, Or.inr ⟨rfl, nofun⟩⟩
  | exhausted hempty => exact ⟨rfl, Or.inr ⟨rfl, fun _ => hempty⟩⟩
  | taken e _ _ hstep =>
      rcases hstep with rfl | hstep
      · exact ⟨rfl, Or.inr ⟨rfl, nofun⟩⟩
      · exact ⟨rfl, Or.inl hstep⟩
  | looked e _ _ hstep => exact ⟨rfl, Or.inl hstep⟩
  | found _ _ hstep _ hrecord | expanded _ _ hstep _ _ _ hrecord =>
      obtain ⟨history, rfl⟩ := search_of_record hrecord
      exact ⟨rfl, Or.inl hstep⟩

theorem next_of_advance {outcome : Outcome M}
    (h : search.advance p policy bound verbose memory = outcome) (hnonempty : search.frontier ≠ [])
    (hnone : outcome.error = none) :
    search.step.next = .ok outcome.search.step :=
  (advance_spec h).2.resolve_right fun hsame => hnonempty (hsame.2 hnone)

/-! ## Runs with a limit -/

/-- The search that a run leaves when it takes no further step: one without nodes has halted. -/
def atRest (search : Search) : Search :=
  if !search.halted && search.frontier.isEmpty then search.halt .frontierEmpty else search

theorem finish_eq (search : Search) (memory : M) (printed : String) (checkpoint : Option Search) :
    (search.finish memory printed checkpoint).search = search.atRest ∧
      (search.finish memory printed checkpoint).error = none := by
  unfold finish atRest
  split
  · exact ⟨rfl, rfl⟩
  · exact ⟨rfl, rfl⟩

theorem atRest_of_halted (h : search.halted = true) : search.atRest = search := by
  rw [atRest, h]
  rfl

theorem atRest_of_ne_nil (h : search.frontier ≠ []) : search.atRest = search := by
  rw [atRest, List.isEmpty_eq_false_iff.mpr h, Bool.and_false, if_neg Bool.false_ne_true]

theorem halted_atRest (h : search.halted = true ∨ search.frontier = []) :
    search.atRest.halted = true := by
  unfold atRest
  split
  · rfl
  · rename_i hrunning
    rcases h with h | h
    · exact h
    · rw [h] at hrunning
      simpa using hrunning

/-- No further step is taken: the search has halted, it has no nodes, or the limit is hit. -/
def Rests (limit : Int) (search : Search) : Prop :=
  search.halted = true ∨ search.frontier = [] ∨ ∃ n, search.step = .whole n ∧ limit ≤ n

theorem Rests.mono {m n : Int} (h : Rests n search) (hle : m ≤ n) : Rests m search := by
  rcases h with h | h | ⟨k, hk, h⟩
  · exact Or.inl h
  · exact Or.inr (Or.inl h)
  · exact Or.inr (Or.inr ⟨k, hk, hle.trans h⟩)

/-- How a run ends that nothing but a limit on the nodes can stop: it rests, or a step fails. -/
inductive RunsTo (p : Problem) (policy : Policy M) (bound : Option Count) (verbose : Bool)
    (limit : Int) :
    Search → M → Search → Option Error → Prop
  | rests {search : Search} {memory : M} (h : Rests limit search) :
      RunsTo p policy bound verbose limit search memory search.atRest none
  | failed {search : Search} {memory : M} {outcome : Outcome M} {e : Error}
      (h : ¬Rests limit search) (hstep : search.advance p policy bound verbose memory = outcome)
      (herror : outcome.error = some e) :
      RunsTo p policy bound verbose limit search memory outcome.search (some e)
  | step {search final : Search} {memory : M} {outcome : Outcome M} {error : Option Error}
      (h : ¬Rests limit search) (hstep : search.advance p policy bound verbose memory = outcome)
      (herror : outcome.error = none)
      (hrest : RunsTo p policy bound verbose limit outcome.search outcome.memory final error) :
      RunsTo p policy bound verbose limit search memory final error

variable {limit m n : Int} {final : Search} {error : Option Error}

/-- **A run ends in one way.** -/
theorem RunsTo.unique {final' : Search} {error' : Option Error}
    (h : RunsTo p policy bound verbose limit search memory final error)
    (h' : RunsTo p policy bound verbose limit search memory final' error') :
    final = final' ∧ error = error' := by
  -- both runs go through the same searches, and these decide between resting and a step
  induction h with
  | rests h =>
      cases h' with
      | rests => exact ⟨rfl, rfl⟩
      | failed h' => exact absurd h h'
      | step h' => exact absurd h h'
  | failed h hstep herror =>
      cases h' with
      | rests h' => exact absurd h' h
      | failed _ hstep' herror' =>
          subst hstep hstep'
          exact ⟨rfl, herror.symm.trans herror'⟩
      | step _ hstep' herror' =>
          subst hstep hstep'
          cases herror.symm.trans herror'
  | step h hstep herror _ ih =>
      cases h' with
      | rests h' => exact absurd h' h
      | failed _ hstep' herror' =>
          subst hstep hstep'
          cases herror.symm.trans herror'
      | step _ hstep' _ hrest' =>
          subst hstep hstep'
          exact ih hrest'

theorem RunsTo.of_halted (h : RunsTo p policy bound verbose limit search memory final error)
    (hhalted : search.halted = true) : final = search ∧ error = none := by
  have hrests : RunsTo p policy bound verbose limit search memory search.atRest none :=
    .rests (Or.inl hhalted)
  rw [atRest_of_halted hhalted] at hrests
  exact h.unique hrests

theorem RunsTo.initialState_eq (h : RunsTo p policy bound verbose limit search memory final error) :
    final.initialState = search.initialState := by
  induction h with
  | @rests search _ _ =>
      unfold atRest
      split <;> rfl
  | failed _ hstep _ => exact (advance_spec hstep).1
  | step _ hstep _ _ ih => exact ih.trans (advance_spec hstep).1

theorem RunsTo.regular (h : RunsTo p policy bound verbose limit search memory final error)
    (hregular : search.Regular) : final.Regular := by
  induction h with
  | @rests search _ _ =>
      unfold atRest
      split
      · exact ⟨hregular.step, hregular.history⟩
      · exact hregular
  | failed _ hstep _ => exact hstep ▸ hregular.advance
  | step _ hstep _ _ ih => exact ih (hstep ▸ hregular.advance)

/-! ## Points on the way -/

/-- Steps are taken below a limit on the nodes, none of them fails, and the search has not halted
then. -/
inductive Goes (p : Problem) (policy : Policy M) (bound : Option Count) (verbose : Bool)
    (limit : Int) :
    Search → M → Search → M → Prop
  | here {search : Search} {memory : M} (h : search.halted = false) :
      Goes p policy bound verbose limit search memory search memory
  | step {search last : Search} {memory memory' : M} {outcome : Outcome M} (h : ¬Rests limit search)
      (hstep : search.advance p policy bound verbose memory = outcome)
      (herror : outcome.error = none)
      (hrest : Goes p policy bound verbose limit outcome.search outcome.memory last memory') :
      Goes p policy bound verbose limit search memory last memory'

/-- **What a run comes to from a point on its way, it comes to from its start.** -/
theorem Goes.runsTo (h : Goes p policy bound verbose limit search memory last memory')
    (hruns : RunsTo p policy bound verbose limit last memory' final error) :
    RunsTo p policy bound verbose limit search memory final error := by
  induction h with
  | here => exact hruns
  | step hmoves hstep herror _ ih => exact .step hmoves hstep herror (ih hruns)

theorem Goes.halted (h : Goes p policy bound verbose limit search memory last memory') :
    search.halted = false := by
  cases h with
  | here h => exact h
  | step hmoves => exact Bool.eq_false_iff.mpr fun hhalted => hmoves (Or.inl hhalted)

theorem Goes.invariant (Inv : Search → M → Prop)
    (hadvance : ∀ {search memory} {outcome : Outcome M}, Inv search memory →
      search.advance p policy bound verbose memory = outcome → outcome.error = none →
      outcome.search.halted = false → Inv outcome.search outcome.memory)
    (h : Goes p policy bound verbose limit search memory last memory')
    (hsearch : Inv search memory) :
    Inv last memory' := by
  induction h with
  | here => exact hsearch
  | step _ hstep herror hrest ih => exact ih (hadvance hsearch hstep herror hrest.halted)

/-! ## The loop -/

section

variable {memory' : M} {last : Search} {k : Int} {late : Nat → Bool} {rounds reading : Nat}
  {checkpoint : Option Search} {run : RunOutcome M}

theorem advance_of_nil (h : search.frontier = []) :
    search.advance p policy bound verbose memory =
      ⟨search.halt .frontierEmpty, memory, "", none⟩ := by
  rw [advance, h]
  rfl

theorem atRest_of_nil (h : search.frontier = []) (hhalted : ¬search.halted = true) :
    search.atRest = search.halt .frontierEmpty := by
  rw [atRest, h, Bool.eq_false_iff.mpr hhalted]
  rfl

theorem not_rests (hk : search.step = .whole k) (hhalted : ¬search.halted = true)
    (hnonempty : search.frontier ≠ []) (hbelow : k < limit) : ¬Rests limit search := by
  rintro (h | h | ⟨j, hj, h⟩)
  · exact hhalted h
  · exact hnonempty h
  · obtain rfl := Count.whole.inj (hk.symm.trans hj)
    exact absurd hbelow (not_lt.mpr h)

theorem rests_of_finish (h : Rests limit search)
    (hrun : search.finish memory printed checkpoint = run) :
    RunsTo p policy bound verbose limit search memory run.search run.error := by
  obtain ⟨hsearch, herror⟩ := finish_eq search memory printed checkpoint
  rw [← hrun, hsearch, herror]
  exact .rests h

theorem eq_of_runFor_of_halted {limits : TimedLimits} (hk : search.step = .whole k)
    (hlimit : limits.maxNodes = .whole limit) (h : search.halted = true)
    (hrun : search.runFor p policy bound verbose limits rounds reading memory printed checkpoint =
      run) :
    run.search = search ∧ run.error = none := by
  have hrests : RunsTo p policy bound verbose limit search memory run.search run.error := by
    cases rounds with
    | zero => exact rests_of_finish (Or.inl h) hrun
    | succ rounds =>
        rw [runFor, hk, hlimit, Count.below_whole] at hrun
        split at hrun
        · contradiction
        · exact rests_of_finish (Or.inl h) hrun
        · rw [if_pos h] at hrun
          exact rests_of_finish (Or.inl h) hrun
  exact hrests.of_halted h

/-- **A run against the clock comes to its end, or the time is up at a point on the way**, when it
has as many rounds as there are nodes below the limit. -/
theorem runFor_ends (late : Nat → Bool) (hk : search.step = .whole k)
    (hrounds : (limit - k).toNat ≤ rounds)
    (hrun : search.runFor p policy bound verbose
      ⟨.whole limit, fun n => .ok (late n), fun _ => .ok false⟩ rounds reading memory
      printed checkpoint
        = run) :
    RunsTo p policy bound verbose limit search memory run.search run.error ∨
      ∃ last memory' n, late n = true ∧
      Goes p policy bound verbose limit search memory last memory' ∧
        run.search = last.halt .timeLimitExceeded ∧ run.error = none := by
  induction rounds generalizing reading search memory printed checkpoint k with
  | zero => exact Or.inl (rests_of_finish (Or.inr (Or.inr ⟨k, hk, by omega⟩)) hrun)
  | succ rounds ih =>
      rw [runFor, hk, Count.below_whole] at hrun
      by_cases hbelow : k < limit
      swap
      · rw [decide_eq_false hbelow] at hrun
        exact Or.inl (rests_of_finish (Or.inr (Or.inr ⟨k, hk, not_lt.mp hbelow⟩)) hrun)
      rw [decide_eq_true hbelow] at hrun
      dsimp only at hrun
      by_cases hhalted : search.halted = true
      · rw [if_pos hhalted] at hrun
        exact Or.inl (rests_of_finish (Or.inl hhalted) hrun)
      rw [if_neg hhalted, stopCause?_of_time] at hrun
      cases hlate : late reading with
      | true =>
          rw [hlate, if_pos rfl] at hrun
          dsimp only at hrun
          subst hrun
          exact Or.inr ⟨search, memory, reading, hlate, .here (Bool.eq_false_iff.mpr hhalted),
            finish_of_halted rfl, (finish_eq _ memory printed checkpoint).2⟩
      | false =>
          rw [hlate, if_neg Bool.false_ne_true] at hrun
          dsimp only at hrun
          by_cases hempty : search.frontier = []
          · -- the step that finds no node is not counted, and halts the search
            rw [advance_of_nil hempty] at hrun
            have hstep : (search.halt .frontierEmpty).step = .whole k := hk
            obtain ⟨hsearch, herror⟩ := eq_of_runFor_of_halted hstep rfl rfl hrun
            rw [hsearch, herror, ← atRest_of_nil hempty hhalted]
            exact Or.inl (.rests (Or.inr (Or.inl hempty)))
          · have hmoves := not_rests hk hhalted hempty hbelow
            split at hrun
            · rename_i e herror
              subst hrun
              dsimp only
              rw [herror]
              exact Or.inl (.failed hmoves rfl herror)
            · rename_i herror
              have hnext := next_of_advance rfl hempty herror
              rw [hk] at hnext
              rcases ih (Except.ok.inj hnext).symm (by omega) hrun with
                hruns | ⟨last, memory', n, hlate, hgoes, hends⟩
              · exact Or.inl (.step hmoves rfl herror hruns)
              · exact Or.inr ⟨last, memory', n, hlate, .step hmoves rfl herror hgoes, hends⟩

/-- **The loop runs to its end** where the time is never up. -/
theorem runsTo_runFor (hk : search.step = .whole k) (hrounds : (limit - k).toNat ≤ rounds)
    (hrun : search.runFor p policy bound verbose
      ⟨.whole limit, fun _ => .ok false, fun _ => .ok false⟩ rounds reading memory printed
      checkpoint = run) :
    RunsTo p policy bound verbose limit search memory run.search run.error := by
  rcases runFor_ends (fun _ => false) hk hrounds hrun with hruns | ⟨_, _, _, hlate, -⟩
  · exact hruns
  · cases hlate

theorem checkpoint_finish (hkept : ∀ kept, checkpoint = some kept → kept = search) :
    ∀ kept, (search.finish memory printed checkpoint).checkpoint = some kept →
      kept = (search.finish memory printed checkpoint).search := by
  unfold finish
  split
  · exact fun kept h => (Option.some.inj h).symm
  · exact hkept

/-- What a run that does not fail has kept of its search is the search that it leaves. -/
theorem checkpoint_runFor (hkept : ∀ kept, checkpoint = some kept → kept = search)
    (hrun : search.runFor p policy bound verbose
      ⟨.whole limit, fun _ => .ok false, fun _ => .ok false⟩ rounds reading memory printed
      checkpoint = run)
    (herror : run.error = none) :
    ∀ kept, run.checkpoint = some kept → kept = run.search := by
  induction rounds generalizing reading search memory printed checkpoint with
  | zero =>
      subst hrun
      exact checkpoint_finish hkept
  | succ rounds ih =>
      rw [runFor] at hrun
      split at hrun
      · subst hrun
        cases herror
      · subst hrun
        exact checkpoint_finish hkept
      · split at hrun
        · subst hrun
          exact checkpoint_finish hkept
        · rw [stopCause?_of_time _ fun _ => false, if_neg Bool.false_ne_true] at hrun
          dsimp only at hrun
          split at hrun
          · rename_i hfailed
            subst hrun
            cases hfailed.symm.trans herror
          · exact ih (fun kept h => (Option.some.inj h).symm) hrun

end

/-! ## Interrupted runs -/

theorem Storable.nodes (h : search.Storable) :
    ∀ n ∈ search.frontier, n.state.Proper ∧ ∀ a ∈ n.actions, a.isPrintable :=
  fun n hn => ⟨(h.frontier n hn).state,
    fun a ha => Action.isPrintable_of_isProper ((h.frontier n hn).actions a ha)⟩

section

variable {Valid : M → Prop} {memory' : M} {verbose' : Bool}

/-- With a forgetful policy it does not matter what is remembered before a step. -/
theorem Storable.agrees (h : search.Storable) (hp : p.Proper) (hforgetful : Forgetful policy Valid)
    (hmemory : Valid memory) (hmemory' : Valid memory') {outcome : Outcome M}
    (hstep : search.advance p policy bound verbose memory = outcome) :
    Agrees (fun memory memory' => Valid memory ∧ Valid memory') outcome
      (search.advance p policy bound verbose' memory') := by
  subst hstep
  exact hforgetful.advance hp (fun n hn => (h.frontier n hn).state) h.nodes ⟨hmemory, hmemory'⟩

/-- What a run with a forgetful policy comes to does not depend on what is remembered at its
start. -/
theorem RunsTo.of_forgetful (h : RunsTo p policy bound verbose limit search memory final error)
    (hp : p.Proper) (hforgetful : Forgetful policy Valid) (hstorable : search.Storable)
    (hmemory : Valid memory) (hmemory' : Valid memory') :
    RunsTo p policy bound verbose' limit search memory' final error := by
  induction h generalizing memory' with
  | rests h => exact .rests h
  | @failed search memory outcome e h hstep herror =>
      have hagrees : Agrees _ outcome (search.advance p policy bound verbose' memory') :=
        hstorable.agrees hp hforgetful hmemory hmemory' hstep
      rw [hagrees.search]
      exact .failed h rfl (hagrees.error ▸ herror)
  | @step search final memory outcome error h hstep herror hrest ih =>
      have hagrees : Agrees _ outcome (search.advance p policy bound verbose' memory') :=
        hstorable.agrees hp hforgetful hmemory hmemory' hstep
      refine .step h rfl (hagrees.error ▸ herror) ?_
      rw [← hagrees.search]
      exact ih (hstep ▸ hstorable.advance hp) hagrees.memory.1 hagrees.memory.2

theorem RunsTo.unique_of_forgetful {final' : Search} {error' : Option Error}
    (h : RunsTo p policy bound verbose limit search memory final error)
    (h' : RunsTo p policy bound verbose' limit search memory' final' error') (hp : p.Proper)
    (hforgetful : Forgetful policy Valid) (hstorable : search.Storable) (hmemory : Valid memory)
    (hmemory' : Valid memory') : final = final' ∧ error = error' :=
  (h.of_forgetful hp hforgetful hstorable hmemory hmemory').unique h'

/-- A run that fails below a limit fails below a higher one. -/
theorem RunsTo.failed_of_le (h : RunsTo p policy bound verbose m search memory final error)
    (hle : m ≤ n) {e : Error} (herror : error = some e) :
    RunsTo p policy bound verbose n search memory final (some e) := by
  induction h with
  | rests => cases herror
  | failed h hstep hfailed =>
      exact .failed (fun hrests => h (hrests.mono hle)) hstep (hfailed.trans herror)
  | step h hstep hnone _ ih =>
      exact .step (fun hrests => h (hrests.mono hle)) hstep hnone (ih herror)

/-- **A run up to a limit and a run from there on to a higher one are one run**, whatever the second
one remembers at its start. -/
theorem RunsTo.resume {middle : Search} {error' : Option Error}
    (h : RunsTo p policy bound verbose m search memory middle error) (herror : error = none)
    (hrest : RunsTo p policy bound verbose' n middle memory' final error') (hle : m ≤ n)
    (hp : p.Proper) (hforgetful : Forgetful policy Valid) (hstorable : search.Storable)
    (hmemory : Valid memory) (hmemory' : Valid memory') :
    RunsTo p policy bound verbose n search memory final error' := by
  induction h with
  | @rests search memory _ =>
      by_cases hended : search.halted = true ∨ search.frontier = []
      · -- the search has halted, so that it is not continued
        obtain ⟨rfl, rfl⟩ := hrest.of_halted (halted_atRest hended)
        rcases hended with hhalted | hempty
        · exact .rests (Or.inl hhalted)
        · exact .rests (Or.inr (Or.inl hempty))
      · obtain ⟨hrunning, hnonempty⟩ := not_or.mp hended
        rw [atRest_of_ne_nil hnonempty] at hrest
        exact hrest.of_forgetful hp hforgetful hstorable hmemory' hmemory
  | failed => cases herror
  | @step search _ memory outcome _ h hstep hnone _ ih =>
      have hagrees : Agrees _ outcome (search.advance p policy bound verbose memory) :=
        hstorable.agrees hp hforgetful hmemory hmemory hstep
      refine .step (fun hrests => h (hrests.mono hle)) hstep hnone ?_
      exact ih herror hrest (hstep ▸ hstorable.advance hp) hagrees.memory.1

end

end Search

end HornPlan
