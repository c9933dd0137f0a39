import HornPlan.Proofs.Consistency
import HornPlan.RecordedGraph

/-!
# Recorded levels are those of the layers

A graph with a record of levels answers like one that searches its layers.  The record gives for
every term the first layer that holds it (`Recorded`): an expansion records the facts that it adds,
and these are in no layer before.  A loop that looks at new layers only finds what one finds that
looks at all of them, because it has missed the others before (`Runs.expandUntil_eq`).

A loop is tied once to a relation that says how it goes on (`Runs`); its answer takes a number of
expansions that the relation does not mention.  What an expansion keeps is kept by every call
(`invariant_of_perform`).
-/

namespace HornPlan

namespace RelaxedGraph

variable {p : Problem} {s : State} {g : RelaxedGraph}

/-- A search through layers goes on where the one through the layers before has missed. -/
theorem levelWhere_append {passes : State → Except Error Bool} (index : Nat)
    (before after : List State) :
    levelWhere passes index (before ++ after) =
      match levelWhere passes index before with
      | .ok none => levelWhere passes (index + before.length) after
      | other => other := by
  induction before generalizing index with
  | nil => rfl
  | cons layer rest ih =>
      rw [List.cons_append, levelWhere, levelWhere, List.length_cons, ← Nat.add_assoc,
        Nat.add_right_comm index rest.length 1]
      rcases passes layer with e | _ | _
      · rfl
      · exact ih (index + 1)
      · rfl

/-- Where the first layers have been missed it is enough to search the others. -/
theorem levelWhere_drop {passes : State → Except Error Bool} {seen : Nat} {layers : List State}
    (h : levelWhere passes 0 (layers.take seen) = .ok none) :
    levelWhere passes seen (layers.drop seen) = levelWhere passes 0 layers := by
  conv_rhs => rw [← List.take_append_drop seen layers, levelWhere_append, h]
  dsimp only
  rw [Nat.zero_add, List.length_take]
  rcases Nat.le_total seen layers.length with hle | hle
  · rw [Nat.min_eq_left hle]
  · rw [List.drop_eq_nil_of_le hle]
    rfl

theorem levelWhere_append_of_ne {passes : State → Except Error Bool} {before : List State}
    (h : levelWhere passes 0 before ≠ .ok none) (after : List State) :
    levelWhere passes 0 (before ++ after) = levelWhere passes 0 before := by
  rw [levelWhere_append]
  split
  · rename_i hnone
    exact absurd hnone h
  · rfl

/-- A layer is the one before it with what that one adds, and that is something. -/
def Grows (p : Problem) (layer next : State) : Prop :=
  ∃ added, added ≠ [] ∧ additions p layer = .ok added ∧ next = layer.insertAll added

end RelaxedGraph

namespace State

theorem Proper.containsTerm_iff {s : State} (hs : s.Proper) {t : Term} :
    s.containsTerm t ↔ t ∈ s.facts.map Atom.toTerm := by
  rw [containsTerm, List.mem_map]
  cases t with
  | app f args =>
      refine hs.holdsFact_iff.trans ⟨fun h => ⟨_, h, rfl⟩, ?_⟩
      rintro ⟨a, ha, hterm⟩
      have heq : a = ⟨f, args⟩ := Atom.toTerm_injective hterm
      exact heq ▸ ha
  | _ =>
      refine iff_of_false ?_ (by rintro ⟨_, _, ⟨⟩⟩)
      simp [Term.atom?, hs.others]

theorem Proper.containsTerm_insertAll {s : State} (hs : s.Proper) {added : List Atom}
    (hclosed : ∀ f ∈ added, f.Closed) (t : Term) :
    (s.insertAll added).containsTerm t ↔ t ∈ added.map Atom.toTerm ∨ s.containsTerm t := by
  rw [(hs.insertAll hclosed).containsTerm_iff, hs.containsTerm_iff, ← List.mem_append,
    ← List.map_append]
  simp only [List.mem_map, List.mem_append, mem_insertAll fun f hf => (hclosed f hf).1]

end State

namespace RecordedGraph

open RelaxedGraph (Layered Call Response additions levelWhere matchesGoal)

variable {p : Problem} {s : State} {g next : RecordedGraph} {e : Error}

/-! ## Expansions -/

theorem toRelaxedGraph_expand {answer : Except Error Bool} (h : expand p g = (answer, next)) :
    g.toRelaxedGraph.expand p = (answer, next.toRelaxedGraph) := by
  rw [show answer = (expand p g).1 by rw [h], show next = (expand p g).2 by rw [h]]
  unfold expand RelaxedGraph.expand
  split
  · rfl
  · cases additions p g.top with
    | error error => rfl
    | ok added => cases added <;> rfl

theorem expand_eq_error (h : expand p g = (.error e, next)) :
    next = g ∧ additions p g.top = .error e := by
  unfold expand at h
  split at h
  · cases (Prod.mk.inj h).1
  · split at h
    · rename_i hadded
      obtain ⟨herror, rfl⟩ := Prod.mk.inj h
      exact ⟨rfl, hadded.trans (congrArg _ (Except.error.inj herror))⟩
    · cases (Prod.mk.inj h).1
    · cases (Prod.mk.inj h).1

/-- What an expansion does to the layers and to the record: nothing, or it adds a layer and records
what is new in it. -/
theorem expand_eq_ok {b : Bool} (h : expand p g = (.ok b, next)) :
    (b = false ∧ next.layers = g.layers ∧ next.levels = g.levels) ∨
      ∃ added, b = true ∧ added ≠ [] ∧ additions p g.top = .ok added ∧
        next.layers = g.layers ++ [g.top.insertAll added] ∧
        next.levels = added.map (fun f => (f.toTerm, g.size)) ++ g.levels := by
  unfold expand at h
  split at h
  · cases h
    exact Or.inl ⟨rfl, rfl, rfl⟩
  · split at h
    · cases h
    · cases h
      exact Or.inl ⟨rfl, rfl, rfl⟩
    · rename_i added hne hadded
      cases h
      exact Or.inr ⟨added, rfl, hne, hadded, rfl, rfl⟩

/-! ## The record -/

section

variable {facts : List Atom} {t : Term}

theorem lookup_map_of_mem (ht : t ∈ facts.map Atom.toTerm) (level : Nat) :
    (facts.map fun f => (f.toTerm, level)).lookup t = some level := by
  induction facts with
  | nil => exact absurd ht List.not_mem_nil
  | cons f facts ih =>
      rw [List.map_cons, List.lookup_cons]
      rcases List.mem_cons.mp ht with rfl | ht
      · rw [BEq.rfl]
      · split
        · rfl
        · exact ih ht

theorem lookup_map_of_not_mem (hfacts : ∀ f ∈ facts, f.isProper) (ht : t ∉ facts.map Atom.toTerm)
    (level : Nat) :
    (facts.map fun f => (f.toTerm, level)).lookup t = none := by
  rw [List.lookup_eq_none_iff]
  rintro _ hentry
  obtain ⟨f, hf, rfl⟩ := List.mem_map.mp hentry
  rw [bne, Bool.not_eq_true', Bool.eq_false_iff]
  intro hbeq
  rw [BEq.comm] at hbeq
  exact ht (List.mem_map.mpr ⟨f, hf, (Term.beq_iff_eq_of_isProper (hfacts f hf)).mp hbeq⟩)

theorem lookup_map_eq (hfacts : ∀ f ∈ facts, f.isProper) {held : Bool}
    (h : held ↔ t ∈ facts.map Atom.toTerm) (level : Nat) :
    (facts.map fun f => (f.toTerm, level)).lookup t = if held then some level else none := by
  cases held with
  | true => exact lookup_map_of_mem (h.mp rfl) level
  | false => exact lookup_map_of_not_mem hfacts (mt h.mpr Bool.false_ne_true) level

end

theorem recorded?_of_isIndexable {t : Term} (ht : t.isIndexable = true) (g : RecordedGraph) :
    g.recorded? t = .ok (g.levels.lookup t) :=
  if_pos ht

theorem lookUp_of_isIndexable {t : Term} (ht : t.isIndexable = true) (layer : State) :
    layer.lookUp t = .ok (layer.containsTerm t) :=
  if_pos ht

theorem levelWhere_lookUp_singleton {t : Term} (ht : t.isIndexable = true) (index : Nat)
    (layer : State) :
    levelWhere (·.lookUp t) index [layer] =
      .ok (if layer.containsTerm t then some index else none) := by
  rw [levelWhere, lookUp_of_isIndexable ht, ok_bind]
  split
  · rfl
  · rfl

/-- The invariant of a graph with a record: each layer adds something to the one before it, and the
record gives the first layer that holds a term. -/
structure Recorded (p : Problem) (s : State) (g : RecordedGraph) : Prop
    extends Layered p s g.toRelaxedGraph where
  grows : g.layers.IsChain (RelaxedGraph.Grows p)
  facts_subset_top : ∀ layer ∈ g.layers, layer.facts ⊆ g.top.facts
  recorded : ∀ t, g.recorded? t = levelWhere (·.lookUp t) 0 g.layers

theorem recorded_start (hs : s.Proper) : Recorded p s (start s) := by
  refine ⟨RelaxedGraph.layered_start hs, List.isChain_singleton _, ?_, ?_⟩
  · intro layer hlayer
    obtain rfl := List.mem_singleton.mp hlayer
    exact List.Subset.refl _
  · intro t
    have hlevels : (start s).levels = s.facts.map fun f => (f.toTerm, 0) := by
      rw [start, hs.others, List.nil_append, List.map_map]
      rfl
    rw [show (start s).layers = [s] from rfl]
    by_cases hindexable : t.isIndexable = true
    · rw [recorded?_of_isIndexable hindexable, levelWhere_lookUp_singleton hindexable, hlevels,
        lookup_map_eq (fun f hf => (hs.closed f hf).1) hs.containsTerm_iff]
    · rw [recorded?, if_neg hindexable, levelWhere, State.lookUp, if_neg hindexable]
      rfl

/-- What is in the record is in the top layer, so it is not new. -/
theorem Recorded.notMem_additions (h : Recorded p s g) {added : List Atom}
    (hadded : additions p g.top = .ok added) {t : Term} (ht : t.isIndexable = true) {level : Nat}
    (hlookup : g.levels.lookup t = some level) :
    t ∉ added.map Atom.toTerm := by
  have hold := h.recorded t
  rw [recorded?_of_isIndexable ht, hlookup] at hold
  obtain ⟨i, layer, -, hlayer, hpasses⟩ := RelaxedGraph.exists_of_levelWhere_eq_some hold.symm
  have hmem := List.mem_of_getElem? hlayer
  rw [lookUp_of_isIndexable ht] at hpasses
  obtain ⟨f, hf, rfl⟩ := List.mem_map.mp
    ((h.proper_layers layer hmem).containsTerm_iff.mp (Except.ok.inj hpasses))
  intro hnew
  obtain ⟨f', hf', heq⟩ := List.mem_map.mp hnew
  obtain rfl := Atom.toTerm_injective heq
  exact ((RelaxedGraph.additions_spec h.proper hadded).1 f' hf').1
    (h.facts_subset_top layer hmem hf)

theorem Recorded.containsTerm_top (h : Recorded p s g) {t : Term} (ht : t.isIndexable = true)
    (hlookup : g.levels.lookup t = none) : g.top.containsTerm t = false := by
  have hold := h.recorded t
  rw [recorded?_of_isIndexable ht, hlookup] at hold
  have hmissed := RelaxedGraph.levelWhere_eq_none hold.symm g.top (RelaxedGraph.top_mem_layers _)
  rw [lookUp_of_isIndexable ht] at hmissed
  exact Except.ok.inj hmissed

/-- The record of a layer more: facts that are new in it have its number, and the others keep
theirs. -/
theorem Recorded.recorded_append (hp : p.Proper) (h : Recorded p s g) {added : List Atom}
    (hadded : additions p g.top = .ok added)
    (hlayers : next.layers = g.layers ++ [g.top.insertAll added])
    (hlevels : next.levels = added.map (fun f => (f.toTerm, g.size)) ++ g.levels) (t : Term) :
    next.recorded? t = levelWhere (·.lookUp t) 0 next.layers := by
  have hclosed : ∀ f ∈ added, f.Closed := fun f hf =>
    RelaxedGraph.closed_of_mem_additions hp h.proper hadded hf
  have hproper : ∀ f ∈ added, f.isProper := fun f hf => (hclosed f hf).1
  have hold := h.recorded t
  rw [hlayers, RelaxedGraph.levelWhere_append, ← hold]
  by_cases hindexable : t.isIndexable = true
  · rw [recorded?_of_isIndexable hindexable, recorded?_of_isIndexable hindexable, hlevels,
      List.lookup_append]
    -- what is on record lies in a layer before and so is not added; anything else is looked for
    -- among what is
    cases hlookup : g.levels.lookup t with
    | some level =>
        rw [lookup_map_of_not_mem hproper (h.notMem_additions hadded hindexable hlookup)]
        rfl
    | none =>
        have hheld := h.proper.containsTerm_insertAll hclosed t
        rw [h.containsTerm_top hindexable hlookup, or_iff_left Bool.false_ne_true] at hheld
        dsimp only
        rw [levelWhere_lookUp_singleton hindexable, Nat.zero_add, lookup_map_eq hproper hheld,
          Option.or_none]
        rfl
  · rw [recorded?, if_neg hindexable, recorded?, if_neg hindexable]

theorem Recorded.expand (hp : p.Proper) (h : Recorded p s g) {answer : Except Error Bool}
    (hexpand : expand p g = (answer, next)) : Recorded p s next := by
  cases answer with
  | error e =>
      obtain ⟨rfl, -⟩ := expand_eq_error hexpand
      exact h
  | ok b =>
      have hlayered := h.toLayered.expand hp (toRelaxedGraph_expand hexpand)
      -- the graph has leveled off and keeps its layers, or a layer is added and put on record
      rcases expand_eq_ok hexpand with
          ⟨rfl, hlayers, hlevels⟩ | ⟨added, rfl, hne, hadded, hlayers, hlevels⟩
      · have htop : next.top = g.top := Option.some.inj
          ((RelaxedGraph.getLast?_layers _).symm.trans
          ((congrArg _ hlayers).trans (RelaxedGraph.getLast?_layers _)))
        refine ⟨hlayered, hlayers ▸ h.grows, ?_, ?_⟩
        · rw [hlayers, htop]
          exact h.facts_subset_top
        · intro t
          rw [hlayers, ← h.recorded t, recorded?, recorded?, hlevels]
      · have htop : next.top = g.top.insertAll added := by
          have hlast := RelaxedGraph.getLast?_layers next.toRelaxedGraph
          rw [hlayers, List.getLast?_append] at hlast
          exact (Option.some.inj hlast).symm
        refine ⟨hlayered, ?_, ?_, h.recorded_append hp hadded hlayers hlevels⟩
        · rw [hlayers]
          refine List.isChain_append.mpr ⟨h.grows, List.isChain_singleton _, ?_⟩
          intro layer hlayer raised hraised
          obtain rfl := Option.some.inj ((RelaxedGraph.getLast?_layers _).symm.trans hlayer)
          obtain rfl := Option.some.inj hraised
          exact ⟨added, hne, hadded, rfl⟩
        · have hproper : ∀ f ∈ added, f.isProper := fun f hf =>
            (RelaxedGraph.closed_of_mem_additions hp h.proper hadded hf).1
          intro layer hlayer f hf
          rw [htop, State.mem_insertAll hproper]
          rw [hlayers] at hlayer
          rcases List.mem_append.mp hlayer with hlayer | hlayer
          · exact Or.inr (h.facts_subset_top layer hlayer hf)
          · obtain rfl := List.mem_singleton.mp hlayer
            exact (State.mem_insertAll hproper).mp hf

/-! ## Loops -/

section

variable {α : Type} {look : Nat → RecordedGraph → Except Error (Option α)} {calls seen : Nat}
  {answer : Except Error (Option α)}

/-- How a loop goes on from a graph of which it has looked at some layers: it has its answer, or it
expands the graph and goes on where that has added a layer. -/
inductive Runs (p : Problem) (look : Nat → RecordedGraph → Except Error (Option α)) :
    Nat → RecordedGraph → Except Error (Option α) → RecordedGraph → Prop
  | failed {seen : Nat} {g : RecordedGraph} {e : Error} (hlook : look seen g = .error e) :
      Runs p look seen g (.error e) g
  | found {seen : Nat} {g : RecordedGraph} {a : α} (hlook : look seen g = .ok (some a)) :
      Runs p look seen g (.ok (some a)) g
  | refused {seen : Nat} {g next : RecordedGraph} {e : Error} (hlook : look seen g = .ok none)
      (hexpand : expand p g = (.error e, next)) : Runs p look seen g (.error e) next
  | leveled {seen : Nat} {g next : RecordedGraph} (hlook : look seen g = .ok none)
      (hexpand : expand p g = (.ok false, next)) : Runs p look seen g (.ok none) next
  | grown {seen : Nat} {g mid next : RecordedGraph} {answer : Except Error (Option α)}
      (hlook : look seen g = .ok none) (hexpand : expand p g = (.ok true, mid))
      (hrest : Runs p look g.size mid answer next) : Runs p look seen g answer next

theorem runs_of_expandWhile (h : expandWhile p look calls seen g = some (answer, next)) :
    Runs p look seen g answer next := by
  induction calls generalizing seen g with
  | zero =>
      unfold expandWhile at h
      split at h
      · rename_i hlook
        cases h
        exact .failed hlook
      · rename_i hlook
        cases h
        exact .found hlook
      · cases h
  | succ calls ih =>
      unfold expandWhile at h
      split at h
      · rename_i hlook
        cases h
        exact .failed hlook
      · rename_i hlook
        cases h
        exact .found hlook
      · rename_i hlook
        dsimp only at h
        split at h
        · rename_i hexpand
          cases h
          exact .refused hlook hexpand
        · rename_i hexpand
          cases h
          exact .leveled hlook hexpand
        · rename_i hexpand
          exact .grown hlook hexpand (ih h)

theorem Runs.invariant {I : RecordedGraph → Prop}
    (hkept : ∀ {g next answer}, I g → expand p g = (answer, next) → I next)
    (hruns : Runs p look seen g answer next) (h : I g) : I next := by
  induction hruns with
  | failed | found => exact h
  | refused _ hexpand | leveled _ hexpand => exact hkept h hexpand
  | grown _ hexpand _ ih => exact ih (hkept h hexpand)

theorem Recorded.exists_succ (h : Recorded p s g) {layers : Nat}
    (hlayers : RelaxedGraph.layerBound p s ≤ layers + g.later.length) :
    ∃ fewer, layers = fewer + 1 := by
  have hlt := h.length_lt
  exact Nat.exists_eq_succ_of_ne_zero (by omega)

/-- **A loop that looks at new layers only finds what one finds that looks at all of them.** -/
theorem Runs.expandUntil_eq (hp : p.Proper) (found : List State → Except Error (Option α))
    (hlook : ∀ seen g, Recorded p s g → found (g.layers.take seen) = .ok none →
      look seen g = found g.layers)
    (hruns : Runs p look seen g answer next) (h : Recorded p s g)
    (hseen : found (g.layers.take seen) = .ok none) {layers : Nat}
    (hlayers : RelaxedGraph.layerBound p s ≤ layers + g.later.length) :
    RelaxedGraph.expandUntil p (fun g => found g.layers) layers g.toRelaxedGraph
      = (answer, next.toRelaxedGraph) := by
  -- induction on the loop; each look at new layers is a look at all, as those seen before are known
  -- to miss
  induction hruns generalizing layers with
  | failed hlooked =>
      rw [hlook _ _ h hseen] at hlooked
      cases layers with
      | zero => rw [RelaxedGraph.expandUntil, hlooked]
      | succ layers => rw [RelaxedGraph.expandUntil, hlooked]
  | found hlooked =>
      rw [hlook _ _ h hseen] at hlooked
      cases layers with
      | zero => rw [RelaxedGraph.expandUntil, hlooked]
      | succ layers => rw [RelaxedGraph.expandUntil, hlooked]
  | refused hlooked hexpand =>
      rw [hlook _ _ h hseen] at hlooked
      obtain ⟨layers, rfl⟩ := h.exists_succ hlayers
      rw [RelaxedGraph.expandUntil, hlooked]
      dsimp only
      rw [toRelaxedGraph_expand hexpand]
  | leveled hlooked hexpand =>
      rw [hlook _ _ h hseen] at hlooked
      obtain ⟨layers, rfl⟩ := h.exists_succ hlayers
      rw [RelaxedGraph.expandUntil, hlooked]
      dsimp only
      rw [toRelaxedGraph_expand hexpand]
  | grown hlooked hexpand hrest ih =>
      rw [hlook _ _ h hseen] at hlooked
      obtain ⟨layers, rfl⟩ := h.exists_succ hlayers
      rw [RelaxedGraph.expandUntil, hlooked]
      dsimp only
      rw [toRelaxedGraph_expand hexpand]
      obtain ⟨-, hlonger, -⟩ := h.toGrown.expand hp (toRelaxedGraph_expand hexpand)
      have hlonger := hlonger rfl
      rcases expand_eq_ok hexpand with ⟨hfalse, -⟩ | ⟨added, -, -, -, hsame, -⟩
      · cases hfalse
      · refine ih (h.expand hp hexpand) ?_ (by omega)
        rw [hsame, RelaxedGraph.size, List.take_left]
        exact hlooked

end

/-! ## Calls -/

theorem exists_of_map_eq_some {α β : Type} {asked : Option (α × RecordedGraph)} {f : α → β} {b : β}
    (h : asked.map (Prod.map f id) = some (b, next)) : ∃ a, asked = some (a, next) ∧ f a = b := by
  obtain ⟨⟨a, mid⟩, hasked, heq⟩ := Option.map_eq_some_iff.mp h
  obtain ⟨hworded, rfl⟩ := Prod.mk.inj heq
  exact ⟨a, hasked, hworded⟩

theorem exists_of_perform_expand {calls : Nat} {answer : Except Error Response}
    (h : perform p calls g .expand = some (answer, next)) :
    ∃ b, expand p g = (b, next) ∧ b.map .grown = answer := by
  rcases hexpand : expand p g with ⟨b, mid⟩
  rw [perform, hexpand] at h
  cases h
  exact ⟨b, rfl, rfl⟩

section

variable {I : RecordedGraph → Prop} {calls : Nat}
  (hkept : ∀ {g next : RecordedGraph} {answer : Except Error Bool}, I g →
      expand p g = (answer, next) → I next)

include hkept

theorem invariant_of_goalLevelOf {goal : Atom} {answer : Except Error (Option Nat)} (h : I g)
    (hlevel : goalLevelOf p calls goal g = some (answer, next)) : I next := by
  unfold goalLevelOf at hlevel
  split at hlevel
  · cases hlevel
    exact h
  · split at hlevel
    · cases hlevel
      exact h
    · exact (runs_of_expandWhile hlevel).invariant hkept h

theorem invariant_of_goalLevelFrom {worst : Nat} {goals : List Atom}
    {answer : Except Error (Option Nat)} (h : I g)
    (hlevel : goalLevelFrom p calls worst goals g = some (answer, next)) : I next := by
  induction goals generalizing worst g with
  | nil =>
      cases hlevel
      exact h
  | cons goal rest ih =>
      rw [goalLevelFrom] at hlevel
      split at hlevel
      · rename_i level mid hfirst
        exact ih (invariant_of_goalLevelOf hkept h hfirst) hlevel
      · exact invariant_of_goalLevelOf hkept h hlevel

/-- What an expansion keeps is kept by every call. -/
theorem invariant_of_perform {call : Call} {answer : Except Error Response} (h : I g)
    (hperform : perform p calls g call = some (answer, next)) : I next := by
  cases call with
  | expand =>
      obtain ⟨_, hexpand, -⟩ := exists_of_perform_expand hperform
      exact hkept h hexpand
  | level =>
      obtain ⟨_, hlevel, -⟩ := exists_of_map_eq_some hperform
      obtain ⟨_, hexpand, -⟩ := exists_of_map_eq_some hlevel
      exact (runs_of_expandWhile hexpand).invariant hkept h
  | levelOf t =>
      obtain ⟨_, hlevel, -⟩ := exists_of_map_eq_some hperform
      exact (runs_of_expandWhile hlevel).invariant hkept h
  | goalLevel goals =>
      obtain ⟨_, hlevel, -⟩ := exists_of_map_eq_some hperform
      exact invariant_of_goalLevelFrom hkept h hlevel

end

/-- A graph that has come from the first layer by calls, whatever their answers were. -/
inductive Reached (p : Problem) (s : State) : RecordedGraph → Prop
  | start : Reached p s (start s)
  | call {g next : RecordedGraph} {calls : Nat} {call : Call} {answer : Except Error Response}
      (h : Reached p s g)
      (hperform : perform p calls g call = some (answer, next)) : Reached p s next

theorem Reached.recorded (hp : p.Proper) (hs : s.Proper) (h : Reached p s g) : Recorded p s g := by
  induction h with
  | start => exact recorded_start hs
  | call _ hperform ih =>
      exact invariant_of_perform (fun h hexpand => h.expand hp hexpand) ih hperform

/-! ## Graphs without a record -/

theorem goalLevelOf_eq (hp : p.Proper) (h : Recorded p s g) {calls : Nat} {goal : Atom}
    {answer : Except Error (Option Nat)}
    (hlevel : goalLevelOf p calls goal g = some (answer, next)) :
    RelaxedGraph.goalLevelOf p goal g.toRelaxedGraph = (answer, next.toRelaxedGraph) := by
  unfold goalLevelOf at hlevel
  unfold RelaxedGraph.goalLevelOf
  generalize goal.requireKey = key at hlevel ⊢
  cases key with
  | error e =>
      cases hlevel
      rfl
  | ok _ =>
      dsimp only at hlevel ⊢
      split at hlevel
      · rename_i hrules
        cases hlevel
        rw [if_pos hrules]
      · rename_i hrules
        rw [if_neg hrules, RelaxedGraph.findLevel, h.first]
        refine (runs_of_expandWhile hlevel).expandUntil_eq hp (levelWhere (matchesGoal p goal) 0) ?_
          h rfl (Nat.le_add_right _ _)
        exact fun seen g _ hmissed => RelaxedGraph.levelWhere_drop hmissed

theorem goalLevelFrom_eq (hp : p.Proper) (h : Recorded p s g) {calls worst : Nat}
    {goals : List Atom} {answer : Except Error (Option Nat)}
    (hlevel : goalLevelFrom p calls worst goals g = some (answer, next)) :
    RelaxedGraph.goalLevelFrom p worst goals g.toRelaxedGraph = (answer, next.toRelaxedGraph) := by
  induction goals generalizing worst g with
  | nil =>
      cases hlevel
      rfl
  | cons goal rest ih =>
      rw [goalLevelFrom] at hlevel
      rw [RelaxedGraph.goalLevelFrom]
      split at hlevel
      · rename_i level mid hfirst
        rw [goalLevelOf_eq hp h hfirst]
        exact ih (invariant_of_goalLevelOf (fun h hexpand => h.expand hp hexpand) h hfirst) hlevel
      · rename_i hother
        rw [goalLevelOf_eq hp h hlevel]
        rcases answer with e | _ | level
        · rfl
        · rfl
        · exact absurd hlevel (hother level next)

/-- **A graph with a record answers like one without**, and leaves the same layers behind. -/
theorem perform_eq (hp : p.Proper) (h : Recorded p s g) {calls : Nat} {call : Call}
    {answer : Except Error Response} (hperform : perform p calls g call = some (answer, next)) :
    RelaxedGraph.perform p g.toRelaxedGraph call = (answer, next.toRelaxedGraph) := by
  cases call with
  | expand =>
      obtain ⟨_, hexpand, rfl⟩ := exists_of_perform_expand hperform
      rw [RelaxedGraph.perform, toRelaxedGraph_expand hexpand]
      rfl
  | level =>
      obtain ⟨_, hlevel, rfl⟩ := exists_of_map_eq_some hperform
      obtain ⟨_, hexpand, rfl⟩ := exists_of_map_eq_some hlevel
      have heq := (runs_of_expandWhile hexpand).expandUntil_eq hp (fun _ => .ok none)
        (fun _ _ _ _ => rfl) h rfl (Nat.le_add_right _ _)
      rw [RelaxedGraph.perform, RelaxedGraph.level, h.first, heq]
      rfl
  | levelOf t =>
      obtain ⟨_, hlevel, rfl⟩ := exists_of_map_eq_some hperform
      have heq := (runs_of_expandWhile hlevel).expandUntil_eq hp (levelWhere (·.lookUp t) 0)
        (fun _ _ h _ => h.recorded t) h rfl (Nat.le_add_right _ _)
      rw [RelaxedGraph.perform, RelaxedGraph.levelOf, RelaxedGraph.findLevel, h.first, heq]
      rfl
  | goalLevel goals =>
      obtain ⟨_, hlevel, rfl⟩ := exists_of_map_eq_some hperform
      rw [RelaxedGraph.perform, RelaxedGraph.goalLevel, goalLevelFrom_eq hp h hlevel]
      rfl

end RecordedGraph

end HornPlan
