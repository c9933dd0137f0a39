import HornPlan.Proofs.Failures
import HornPlan.Proofs.FlatFacts
import HornPlan.Proofs.RecordedGraphs
import Mathlib.Data.Set.Card

/-!
# Relaxed graphs level off

The loops that answer questions about a graph expand it as long as they have no answer.  What bounds
them is not the nesting of terms, since an action may build function terms from its parameters, but
the groundings: a parameter only ever stands for a constant, and where it would stand for a compound
term the grounding fails.  So all facts that layers can add are instances of the facts that actions
add, over constants.

Each layer adds one of these at least, and no graph has more layers above the first than there are
such facts (`Grown.length_le_addableCount`).  One expansion more finds that the graph has leveled
off, or fails, and a loop that is allowed as many has its answer (`exists_expandWhile`,
`exists_goalLevelFrom`).  This holds whatever has been asked of the graph before
(`Reached.levelsOff`).
-/

namespace HornPlan

/-- The error of a grounding that would have to take a compound term for a parameter. -/
def Problem.Refuses (p : Problem) (e : Error) : Prop :=
  ∃ schema ∈ p.actions, ∃ f args, e = .schema (.badParameter schema.name (.app f args))

namespace RelaxedGraph

variable {p : Problem} {s : State} {g : RelaxedGraph} {e : Error}

/-- The number of facts that instances of the actions over constants can add. -/
noncomputable def addableCount (p : Problem) (s : State) : Nat :=
  {f | f ∈ addable p s}.ncard

theorem Grown.length_le_addableCount (h : Grown p s g) : g.later.length ≤ addableCount p s := by
  classical
  obtain ⟨added, hnodup, hsub, -, hlength⟩ := h.counted
  calc g.later.length = added.toFinset.card := by rw [hlength, List.toFinset_card_of_nodup hnodup]
    _ = (added.toFinset : Set Atom).ncard := (Set.ncard_coe_finset _).symm
    _ ≤ addableCount p s :=
      Set.ncard_le_ncard (fun f hf => hsub (by simpa using hf)) (List.finite_toSet _)

theorem refuses_of_additions (hp : p.Proper) {layer : State} (hlayer : layer.Proper)
    (h : additions p layer = .error e) : p.Refuses e := by
  obtain ⟨t, ht, schema, hschema, hfailed⟩ := failsFrom_of_additions hlayer h
  have htproper := Problem.proper_of_explores hp ht hlayer
  obtain ⟨_, -, hknowledge, hclosure⟩ := hp.exists_knowledge
  obtain ⟨f, args, rfl, -⟩ := Action.exists_of_groundings_eq_error (hp.actions schema hschema)
    (fun f hf => htproper.closed f (Enumeration.mem_listing.mp hf)) hknowledge hclosure hfailed
  exact ⟨schema, hschema, f, args, rfl⟩

/-- A call about proper terms. -/
def Call.Proper : Call → Prop
  | .levelOf t => t.isProper
  | .goalLevel goals => ∀ goal ∈ goals, goal.isProper
  | _ => True

/-- The reply that there is no more to find. -/
def Call.nothing : Call → Response
  | .expand => .grown false
  | .level => .leveled
  | _ => .level none

end RelaxedGraph

namespace RecordedGraph

open RelaxedGraph (Layered Call Response additions addableCount matchesGoal)

variable {p : Problem} {s : State} {g next : RecordedGraph} {e : Error}

/-! ## Expansions -/

/-- **What an expansion does**: it adds a layer, or it finds that the graph has leveled off, or it
fails and leaves the graph as it was. -/
theorem expand_cases (hp : p.Proper) (h : Layered p s g.toRelaxedGraph) :
    (∃ next, expand p g = (.ok true, next) ∧ Layered p s next.toRelaxedGraph ∧
      next.later.length = g.later.length + 1) ∨
    (∃ next, expand p g = (.ok false, next) ∧ Layered p s next.toRelaxedGraph ∧
      next.leveledOff = true ∧
      next.layers = g.layers) ∨
      ∃ e, expand p g = (.error e, g) ∧ additions p g.top = .error e := by
  rcases hexpand : expand p g with ⟨e | b, next⟩
  · obtain ⟨rfl, hadded⟩ := expand_eq_error hexpand
    exact Or.inr (Or.inr ⟨e, rfl, hadded⟩)
  · have hlayered := h.expand hp (toRelaxedGraph_expand hexpand)
    obtain ⟨-, hgrows, hlevels⟩ := h.toGrown.expand hp (toRelaxedGraph_expand hexpand)
    cases b with
    | true => exact Or.inl ⟨next, rfl, hlayered, hgrows rfl⟩
    | false => exact Or.inr (Or.inl ⟨next, rfl, hlayered, hlevels rfl⟩)

/-! ## Loops -/

section

variable {α : Type} {look : Nat → RecordedGraph → Except Error (Option α)} {calls seen : Nat}
  {answer : Except Error (Option α)}

/-- **A loop ends** when it may expand once more than there are facts left to add. -/
theorem exists_expandWhile (hp : p.Proper) (h : Layered p s g.toRelaxedGraph)
    (hcalls : addableCount p s < calls + g.later.length)
    (look : Nat → RecordedGraph → Except Error (Option α)) (seen : Nat) :
    ∃ answer next, expandWhile p look calls seen g = some (answer, next) := by
  induction calls generalizing seen g with
  | zero =>
      have hle := h.length_le_addableCount
      omega
  | succ calls ih =>
      unfold expandWhile
      split
      · exact ⟨_, _, rfl⟩
      · exact ⟨_, _, rfl⟩
      · dsimp only
        rcases expand_cases hp h with
            ⟨next, hexpand, hlayered, hlonger⟩ | ⟨next, hexpand, -⟩ | ⟨e, hexpand, -⟩
        · rw [hexpand]
          exact ih hlayered (by omega) _
        · exact ⟨_, _, by rw [hexpand]⟩
        · exact ⟨_, _, by rw [hexpand]⟩

/-- What the graph is like when a loop has ended: a look at it gives the answer, or without one it
has leveled off; and an error is that of a look at it or that of its top layer. -/
theorem Runs.spec (hp : p.Proper) (h : Layered p s g.toRelaxedGraph)
    (hruns : Runs p look seen g answer next) :
    Layered p s next.toRelaxedGraph ∧ g.later.length ≤ next.later.length ∧
      (∀ a, answer = .ok (some a) → ∃ seen, look seen next = .ok (some a)) ∧
      (answer = .ok none → next.leveledOff = true) ∧
      ∀ e, answer = .error e → (∃ seen, look seen next = .error e) ∨
      additions p next.top = .error e := by
  induction hruns with
  | failed hlook =>
      exact ⟨h, le_rfl, nofun, nofun, fun e he => Or.inl ⟨_, Except.error.inj he ▸ hlook⟩⟩
  | found hlook => exact ⟨h, le_rfl, fun a ha => ⟨_, hlook.trans ha⟩, nofun, nofun⟩
  | refused hlook hexpand =>
      obtain ⟨rfl, hadded⟩ := expand_eq_error hexpand
      exact ⟨h, le_rfl, nofun, nofun, fun e he => Or.inr (Except.error.inj he ▸ hadded)⟩
  | leveled hlook hexpand =>
      obtain ⟨-, -, hlevels⟩ := h.toGrown.expand hp (toRelaxedGraph_expand hexpand)
      obtain ⟨hleveled, hsame⟩ := hlevels rfl
      have hlater := congrArg List.length (List.cons.inj hsame).2
      exact ⟨h.expand hp (toRelaxedGraph_expand hexpand), hlater.ge, nofun,
        fun _ => hleveled, nofun⟩
  | grown hlook hexpand hrest ih =>
      obtain ⟨-, hgrows, -⟩ := h.toGrown.expand hp (toRelaxedGraph_expand hexpand)
      obtain ⟨hlayered, hle, hspec⟩ := ih (h.expand hp (toRelaxedGraph_expand hexpand))
      have hlonger := hgrows rfl
      exact ⟨hlayered, by omega, hspec⟩

end

/-! ## Questions -/

/-- What the graph is like that a question leaves behind, where `nothing` is the answer that there
is no more to find, and the errors of proper questions. -/
structure Answered (p : Problem) (s : State) (g : RecordedGraph) {α : Type} (nothing : α)
    (proper : Prop) (answer : Except Error α) (next : RecordedGraph) : Prop where
  layered : Layered p s next.toRelaxedGraph
  length_le : g.later.length ≤ next.later.length
  leveled : answer = .ok nothing → next.leveledOff = true
  refused : proper → ∀ e, answer = .error e → p.Refuses e

theorem Answered.map {α β : Type} {nothing : α} {proper : Prop} {answer : Except Error α}
    (f : α → β) (hf : Function.Injective f) (h : Answered p s g nothing proper answer next) :
    Answered p s g (f nothing) proper (answer.map f) next := by
  refine ⟨h.layered, h.length_le, ?_, ?_⟩
  · intro hanswer
    cases answer with
    | error e => cases hanswer
    | ok a => exact h.leveled (congrArg _ (hf (Except.ok.inj hanswer)))
  · intro hproper e he
    cases answer with
    | error e' => exact h.refused hproper e (congrArg _ (Except.error.inj he))
    | ok a => cases he

theorem answered_of_expandWhile {α : Type} {look : Nat → RecordedGraph → Except Error (Option α)}
    {calls seen : Nat} {answer : Except Error (Option α)} (hp : p.Proper)
    (h : Layered p s g.toRelaxedGraph) {proper : Prop}
    (hlook : proper → ∀ seen e, Layered p s next.toRelaxedGraph → look seen next ≠ .error e)
    (hexpand : expandWhile p look calls seen g = some (answer, next)) :
    Answered p s g none proper answer next := by
  obtain ⟨hlayered, hle, -, hleveled, hfailed⟩ := (runs_of_expandWhile hexpand).spec hp h
  refine ⟨hlayered, hle, hleveled, ?_⟩
  intro hproper e he
  rcases hfailed e he with ⟨seen, hasked⟩ | hadded
  · exact absurd hasked (hlook hproper seen e hlayered)
  · exact RelaxedGraph.refuses_of_additions hp hlayered.proper hadded

theorem expand_answered (hp : p.Proper) (h : Layered p s g.toRelaxedGraph)
    {answer : Except Error Bool} (hexpand : expand p g = (answer, next)) :
    Answered p s g false True answer next := by
  rcases expand_cases hp h with
      ⟨mid, hmid, hlayered, hlonger⟩ | ⟨mid, hmid, hlayered, hleveled, hsame⟩ |
    ⟨e, hmid, hadded⟩ <;> obtain ⟨rfl, rfl⟩ := Prod.mk.inj (hmid.symm.trans hexpand)
  · exact ⟨hlayered, by omega, nofun, nofun⟩
  · exact ⟨hlayered, (congrArg List.length (List.cons.inj hsame).2).ge, fun _ => hleveled, nofun⟩
  · refine ⟨h, le_rfl, nofun, ?_⟩
    rintro - _ ⟨⟩
    exact RelaxedGraph.refuses_of_additions hp h.proper hadded

theorem level_answered (hp : p.Proper) (h : Layered p s g.toRelaxedGraph) {calls : Nat}
    {answer : Except Error Unit} (hlevel : level p calls g = some (answer, next)) :
    Answered p s g () True answer next := by
  obtain ⟨found, hexpand, rfl⟩ := exists_of_map_eq_some hlevel
  have hanswered : Answered p s g none True found next :=
    answered_of_expandWhile hp h (by rintro - _ _ - ⟨⟩) hexpand
  refine ⟨hanswered.layered, hanswered.length_le, ?_, ?_⟩
  · intro hanswer
    obtain ⟨-, -, hfound, -, -⟩ := (runs_of_expandWhile hexpand).spec hp h
    rcases found with e | _ | a
    · cases hanswer
    · exact hanswered.leveled rfl
    · obtain ⟨_, hlook⟩ := hfound a rfl
      cases hlook
  · intro _ e he
    cases found with
    | error e' => exact hanswered.refused trivial e (congrArg _ (Except.error.inj he))
    | ok _ => cases he

theorem levelOf_answered (hp : p.Proper) (h : Layered p s g.toRelaxedGraph) {calls : Nat} {t : Term}
    {answer : Except Error (Option Nat)} (hlevel : levelOf p calls t g = some (answer, next)) :
    Answered p s g none (t.isProper = true) answer next := by
  refine answered_of_expandWhile hp h ?_ hlevel
  intro ht seen e _ hasked
  rw [recorded?, if_pos (Term.isIndexable_of_isProper ht)] at hasked
  cases hasked

theorem goalLevelOf_answered (hp : p.Proper) (h : Layered p s g.toRelaxedGraph) {calls : Nat}
    {goal : Atom} {answer : Except Error (Option Nat)}
    (hlevel : goalLevelOf p calls goal g = some (answer, next)) :
    Answered p s g none (goal.isProper = true) answer next := by
  unfold goalLevelOf at hlevel
  split at hlevel
  · rename_i herror
    cases hlevel
    refine ⟨h, le_rfl, nofun, ?_⟩
    intro hgoal
    cases herror.symm.trans (KnowledgeBase.requireKey_eq_ok hgoal)
  · split at hlevel
    · cases hlevel
      exact ⟨h, le_rfl, nofun, nofun⟩
    · refine answered_of_expandWhile hp h ?_ hlevel
      intro hgoal seen e hlayered hasked
      have hall : ∀ layer ∈ next.layers.drop seen, ∃ b, matchesGoal p goal layer = .ok b :=
        fun layer hlayer => RelaxedGraph.exists_matchesGoal
          (hlayered.proper_layers layer (List.mem_of_mem_drop hlayer)) hgoal
      obtain ⟨level, hlevel⟩ := RelaxedGraph.exists_levelWhere hall seen
      cases hlevel.symm.trans hasked

theorem goalLevelFrom_answered (hp : p.Proper) (h : Layered p s g.toRelaxedGraph)
    {calls worst : Nat} {goals : List Atom} {answer : Except Error (Option Nat)}
    (hlevel : goalLevelFrom p calls worst goals g = some (answer, next)) :
    Answered p s g none (∀ goal ∈ goals, goal.isProper) answer next := by
  induction goals generalizing worst g with
  | nil =>
      cases hlevel
      exact ⟨h, le_rfl, nofun, nofun⟩
  | cons goal rest ih =>
      rw [goalLevelFrom] at hlevel
      split at hlevel
      · rename_i level mid hfirst
        have hmid := goalLevelOf_answered hp h hfirst
        have hnext := ih hmid.layered hlevel
        exact ⟨hnext.layered, hmid.length_le.trans hnext.length_le, hnext.leveled, fun hgoals =>
          hnext.refused (List.forall_mem_cons.mp hgoals).2⟩
      · have hnext := goalLevelOf_answered hp h hlevel
        exact ⟨hnext.layered, hnext.length_le, hnext.leveled, fun hgoals =>
          hnext.refused (List.forall_mem_cons.mp hgoals).1⟩

/-- The levels of goals are found when each of them may take one expansion more than there are facts
left to add. -/
theorem exists_goalLevelFrom (hp : p.Proper) (h : Layered p s g.toRelaxedGraph) {calls : Nat}
    (hcalls : addableCount p s < calls + g.later.length) (worst : Nat) (goals : List Atom) :
    ∃ answer next, goalLevelFrom p calls worst goals g = some (answer, next) := by
  induction goals generalizing worst g with
  | nil => exact ⟨_, _, rfl⟩
  | cons goal rest ih =>
      obtain ⟨answer, mid, hfirst⟩ :
          ∃ answer mid, goalLevelOf p calls goal g = some (answer, mid) := by
        unfold goalLevelOf
        split
        · exact ⟨_, _, rfl⟩
        · split
          · exact ⟨_, _, rfl⟩
          · exact exists_expandWhile hp h hcalls _ 0
      have hmid := goalLevelOf_answered hp h hfirst
      have hle := hmid.length_le
      rw [goalLevelFrom, hfirst]
      split
      · rename_i hsome
        cases hsome
        exact ih hmid.layered (by omega) _
      · exact ⟨_, _, rfl⟩

/-! ## Calls -/

theorem perform_answered (hp : p.Proper) (h : Layered p s g.toRelaxedGraph) {calls : Nat}
    {call : Call} {answer : Except Error Response}
    (hperform : perform p calls g call = some (answer, next)) :
    Answered p s g call.nothing call.Proper answer next := by
  cases call with
  | expand =>
      obtain ⟨_, hexpand, rfl⟩ := exists_of_perform_expand hperform
      exact (expand_answered hp h hexpand).map Response.grown fun _ _ => Response.grown.inj
  | level =>
      obtain ⟨_, hlevel, rfl⟩ := exists_of_map_eq_some hperform
      exact (level_answered hp h hlevel).map (fun _ => Response.leveled) fun _ _ _ => rfl
  | levelOf t =>
      obtain ⟨_, hlevel, rfl⟩ := exists_of_map_eq_some hperform
      exact (levelOf_answered hp h hlevel).map _ fun _ _ => Response.level.inj
  | goalLevel goals =>
      obtain ⟨_, hlevel, rfl⟩ := exists_of_map_eq_some hperform
      exact (goalLevelFrom_answered hp h hlevel).map _ fun _ _ => Response.level.inj

theorem exists_perform (hp : p.Proper) (h : Layered p s g.toRelaxedGraph) {calls : Nat}
    (hcalls : addableCount p s < calls + g.later.length) (call : Call) :
    ∃ answer next, perform p calls g call = some (answer, next) := by
  cases call with
  | expand => exact ⟨_, _, rfl⟩
  | level =>
      obtain ⟨answer, next, hlevel⟩ :=
        exists_expandWhile (α := Unit) hp h hcalls (fun _ _ => .ok none) 0
      exact ⟨_, _, by rw [perform, level, hlevel]; rfl⟩
  | levelOf t =>
      obtain ⟨answer, next, hlevel⟩ := exists_expandWhile hp h hcalls (fun _ g => g.recorded? t) 0
      exact ⟨_, _, by rw [perform, levelOf, hlevel]; rfl⟩
  | goalLevel goals =>
      obtain ⟨answer, next, hlevel⟩ := exists_goalLevelFrom hp h hcalls 0 goals
      exact ⟨_, _, by rw [perform, hlevel]; rfl⟩

/-- What an expansion of a graph may come to, and that every call comes to an end: the same one,
with the same layers, as where the graph has no record. -/
structure LevelsOff (p : Problem) (s : State) (g : RecordedGraph) : Prop where
  length_le : g.later.length ≤ addableCount p s
  expand : (∃ next, expand p g = (.ok true, next) ∧ next.later.length = g.later.length + 1) ∨
    (∃ next, expand p g = (.ok false, next) ∧ next.leveledOff = true ∧ next.layers = g.layers) ∨
    ∃ e, expand p g = (.error e, g) ∧ p.Refuses e
  perform : ∀ call calls, addableCount p s < calls + g.later.length → ∃ answer next,
    perform p calls g call = some (answer, next) ∧
      RelaxedGraph.perform p g.toRelaxedGraph call = (answer, next.toRelaxedGraph) ∧
      (answer = .ok call.nothing → next.leveledOff = true) ∧
      (call.Proper → ∀ e, answer = .error e → p.Refuses e)

/-- **Whatever has been asked of a graph, it levels off after as many expansions as there are facts
to add and one more, or a grounding fails**, and no loop expands it more often. -/
theorem Reached.levelsOff (hp : p.Proper) (hs : s.Proper) (h : Reached p s g) :
    LevelsOff p s g := by
  have hrecorded := h.recorded hp hs
  have hlayered := hrecorded.toLayered
  refine ⟨hlayered.length_le_addableCount, ?_, ?_⟩
  · rcases expand_cases hp hlayered with ⟨next, hexpand, -, hlonger⟩ | ⟨next, hexpand, -, hlevels⟩ |
      ⟨e, hexpand, hadded⟩
    · exact Or.inl ⟨next, hexpand, hlonger⟩
    · exact Or.inr (Or.inl ⟨next, hexpand, hlevels⟩)
    · exact Or.inr
        (Or.inr ⟨e, hexpand, RelaxedGraph.refuses_of_additions hp hlayered.proper hadded⟩)
  · intro call calls hcalls
    obtain ⟨answer, next, hperform⟩ := exists_perform hp hlayered hcalls call
    have hanswered := perform_answered hp hlayered hperform
    exact ⟨answer, next, hperform, perform_eq hp hrecorded hperform, hanswered.leveled,
      hanswered.refused⟩

/-- Whatever one has can be wrapped, and the parcel is had as well. -/
def wrapWhatIsThere : Except Error Problem := do
  let has ← Worlds.atom ("Has", ["x"])
  let parcel ← Worlds.atom ("Parcel", ["x"])
  let wrap ← Draft.toAction? ⟨Symbol.ofText? "Wrap", Worlds.parameters ["x"], [has.toTerm], [],
    [Atom.toTerm ⟨has.predicate, [parcel.toTerm]⟩], [], [], true⟩
  Problem.make? (.str "wrap_what_is_there") (← Worlds.facts [("Has", ["A"])]) [.inl wrap]
    (← Worlds.goal [("Has", ["B"])])

/-- A parcel cannot be wrapped, since it has no name but that of its content. -/
theorem levelsOff_wrapWhatIsThere : ∃ p next e, wrapWhatIsThere = .ok p ∧ p.Proper ∧
    p.initialState.Proper ∧
    expand p (start p.initialState) = (.ok true, next) ∧ Reached p p.initialState next ∧
    LevelsOff p p.initialState next ∧ expand p next = (.error e, next) ∧ p.Refuses e := by
  obtain ⟨p, hwrap, hproper⟩ : ∃ p, wrapWhatIsThere = .ok p ∧ p.Proper :=
    Problem.exists_ok_of_isProper (by decide +kernel)
  have hanswers : (wrapWhatIsThere.toOption.map fun p =>
      ((expand p (start p.initialState)).1.toOption,
        (expand p (expand p (start p.initialState)).2).1.toOption))
      = some (some true, none) := by
    decide +kernel
  rw [hwrap] at hanswers
  rcases hexpand : expand p (start p.initialState) with ⟨answer, next⟩
  obtain ⟨hfirst, hsecond⟩ := Prod.mk.inj (Option.some.inj hanswers)
  rw [hexpand] at hfirst hsecond
  obtain rfl := eq_ok_of_toOption hfirst
  have hperform : perform p 0 (start p.initialState) .expand = some (.ok (.grown true), next) := by
    rw [perform, hexpand]
    rfl
  have hreached : Reached p p.initialState next := .call .start hperform
  have hlevels := hreached.levelsOff hproper hproper.initialState
  -- the second expansion has no answer, so it is the one that is refused
  rcases hlevels.expand with ⟨_, h, -⟩ | ⟨_, h, -⟩ | ⟨e, h, hrefused⟩
  · rw [h] at hsecond
    cases hsecond
  · rw [h] at hsecond
    cases hsecond
  · exact ⟨p, next, e, hwrap, hproper, hproper.initialState, hexpand, hreached, hlevels,
      h, hrefused⟩

end RecordedGraph

end HornPlan
