import HornPlan.Proofs.LevelingOff

/-!
# Lazily expanded graphs answer like whole ones

A graph is expanded only as far as its answers need it, and questions share its layers, its record
and the mark that it has leveled off.  All the same an answer does not depend on what was asked
before: it is that of the whole graph, which has been expanded until it leveled off
(`Reached.agrees_with_fresh`).

* A layer is raised in one way, so the layers of a graph are the first ones of the whole graph
  (`Recorded.layers_isPrefix`), and those of a graph that has leveled off are all of them.
* What a look at some first layers finds, a look at all layers finds as well.  Where it finds
  nothing the loop goes on, until it has looked at the whole graph (`Runs.answer_eq`).
* The layers of the whole graph are what they are by groundings: each holds what the one before it
  holds and what a grounding in that one adds, something new among it (`Raised`), and no grounding
  in the last one adds anything (`IsWhole`).
-/

namespace HornPlan

namespace RelaxedGraph

variable {p : Problem} {s : State}

/-! ## Levels in a list of layers -/

/-- The number of the first layer that passes a test, or nothing where none does. -/
def FirstIn (layers : List State) (test : State → Prop) : Option Nat → Prop
  | some n => (∃ layer, layers[n]? = some layer ∧ test layer) ∧
      ∀ i < n, ∀ layer, layers[i]? = some layer → ¬test layer
  | none => ∀ layer ∈ layers, ¬test layer

/-- The level of a goal: zero where a rule concludes its predicate, and else that of the first layer
that matches it. -/
def IsGoalLevel (p : Problem) (layers : List State) (goal : Atom) (level : Option Nat) : Prop :=
  ((∃ r ∈ p.rules, r.consequent.key = goal.key) ∧ level = some 0) ∨
    (¬∃ r ∈ p.rules, r.consequent.key = goal.key) ∧
      FirstIn layers (fun layer => ∃ k : Variable → Term, goal.bind k ∈ layer.facts) level

/-- The largest of the levels of some goals, zero where there are none, and nothing where one of
them has no level. -/
def IsLargestLevel (p : Problem) (layers : List State) (goals : List Atom) : Option Nat → Prop
  | some n => (∀ goal ∈ goals, ∃ m ≤ n, IsGoalLevel p layers goal (some m)) ∧
      (n = 0 ∨ ∃ goal ∈ goals, IsGoalLevel p layers goal (some n))
  | none => ∃ goal ∈ goals, IsGoalLevel p layers goal none

theorem FirstIn.unique {layers : List State} {test : State → Prop} {m n : Option Nat}
    (hm : FirstIn layers test m) (hn : FirstIn layers test n) : m = n := by
  have hmissed : ∀ {i}, FirstIn layers test (some i) → ¬FirstIn layers test none := by
    rintro i ⟨⟨layer, hlayer, htest⟩, -⟩ hnone
    exact hnone layer (List.mem_of_getElem? hlayer) htest
  rcases m with _ | m <;> rcases n with _ | n
  · rfl
  · exact absurd hm (hmissed hn)
  · exact absurd hn (hmissed hm)
  · obtain ⟨⟨layer, hlayer, htest⟩, hbefore⟩ := hm
    obtain ⟨⟨other, hother, htest'⟩, hbefore'⟩ := hn
    rcases Nat.lt_trichotomy m n with hlt | rfl | hlt
    · exact absurd htest (hbefore' m hlt layer hlayer)
    · rfl
    · exact absurd htest' (hbefore n hlt other hother)

theorem IsGoalLevel.unique {layers : List State} {goal : Atom} {m n : Option Nat}
    (hm : IsGoalLevel p layers goal m) (hn : IsGoalLevel p layers goal n) : m = n := by
  rcases hm with ⟨hrule, rfl⟩ | ⟨hrules, hm⟩ <;> rcases hn with ⟨hrule', rfl⟩ | ⟨hrules', hn⟩
  · rfl
  · exact absurd hrule hrules'
  · exact absurd hrule' hrules
  · exact hm.unique hn

theorem IsLargestLevel.unique {layers : List State} {goals : List Atom} {m n : Option Nat}
    (hm : IsLargestLevel p layers goals m) (hn : IsLargestLevel p layers goals n) : m = n := by
  have hle : ∀ {m n : Nat}, IsLargestLevel p layers goals (some m) →
      IsLargestLevel p layers goals (some n) →
      m ≤ n := by
    rintro m n ⟨-, rfl | ⟨goal, hgoal, hm⟩⟩ ⟨hn, -⟩
    · exact Nat.zero_le n
    · obtain ⟨k, hk, hlevel⟩ := hn goal hgoal
      exact Option.some.inj (hm.unique hlevel) ▸ hk
  have hmissed : ∀ {i}, IsLargestLevel p layers goals (some i) →
      ¬IsLargestLevel p layers goals none := by
    rintro i ⟨hall, -⟩ ⟨goal, hgoal, hnone⟩
    obtain ⟨m, -, hm⟩ := hall goal hgoal
    cases hm.unique hnone
  rcases m with _ | m <;> rcases n with _ | n
  · rfl
  · exact absurd hm (hmissed hn)
  · exact absurd hn (hmissed hm)
  · rw [Nat.le_antisymm (hle hm hn) (hle hn hm)]

theorem firstIn_of_levelWhere {passes : State → Except Error Bool} {test : State → Prop}
    {layers : List State} (hpasses : ∀ layer ∈ layers, ∀ b, passes layer = .ok b → (b ↔ test layer))
    {level : Option Nat} (h : levelWhere passes 0 layers = .ok level) :
    FirstIn layers test level := by
  cases level with
  | none =>
      intro layer hlayer htest
      have hmissed := levelWhere_eq_none h layer hlayer
      exact absurd ((hpasses layer hlayer false hmissed).mpr htest) Bool.false_ne_true
  | some n =>
      obtain ⟨before, after, hlayers, hn, hbefore⟩ := levelWhere_eq_some h
      obtain ⟨i, layer, hi, hlayer, hpassed⟩ := exists_of_levelWhere_eq_some h
      rw [Nat.zero_add] at hn hi
      subst hi
      refine ⟨⟨layer, hlayer, (hpasses layer (List.mem_of_getElem? hlayer) true hpassed).mp rfl⟩,
        ?_⟩
      intro i hi other hother htest
      have hmem : other ∈ before := by
        rw [hlayers, List.getElem?_append_left (hn ▸ hi)] at hother
        exact List.mem_of_getElem? hother
      have hmissed := hbefore other hmem
      exact absurd ((hpasses other (List.mem_of_getElem? hother) false hmissed).mpr htest)
        Bool.false_ne_true

/-! ## Layers by groundings -/

/-- A layer holds what the one before it holds and what a grounding in that one adds, and some of it
is new. -/
structure Raised (p : Problem) (layer next : State) : Prop where
  mem_iff : ∀ f, f ∈ next.facts ↔ f ∈ layer.facts ∨ ∃ a, p.GroundedAt layer a ∧ f ∈ a.adds
  new : ∃ f ∈ next.facts, f ∉ layer.facts

/-- The layers above a state, each raised by the one before it, up to one in which no grounding adds
anything. -/
structure IsWhole (p : Problem) (s : State) (layers : List State) : Prop where
  first : layers.head? = some s
  raised : layers.IsChain (Raised p)
  last : ∀ top ∈ layers.getLast?, ∀ a, p.GroundedAt top a → ∀ f ∈ a.adds, f ∈ top.facts

/-- What is added to a layer is what its groundings add and what is not there. -/
theorem mem_additions_iff (hp : p.Proper) {layer : State} (hlayer : layer.Proper)
    {added : List Atom} (hadded : additions p layer = .ok added) {f : Atom} :
    f ∈ added ↔ f ∉ layer.facts ∧ ∃ a, p.GroundedAt layer a ∧ f ∈ a.adds := by
  obtain ⟨hsound, hcomplete⟩ := additions_spec hlayer hadded
  constructor
  · intro hf
    obtain ⟨hnew, schema, hschema, grounded, hgrounded, a, ha, hfa⟩ := hsound f hf
    exact ⟨hnew, a, hp.groundedAt hlayer hschema hgrounded ha, hfa⟩
  · rintro ⟨hnew, a, ⟨schema, hschema, entailed, σ, hentailed, hσ⟩, hfa⟩
    obtain ⟨grounded, hgrounded, hspec⟩ := hcomplete schema hschema
    obtain ⟨facts, hfacts, hknowledge, hclosure⟩ := hp.exists_knowledge
    obtain rfl := Except.ok.inj (hfacts.symm.trans hentailed)
    -- the grounding is found, up to the atoms that its substitution does not determine
    obtain ⟨g, hg, hinstance⟩ := Action.exists_mem_groundings (hp.actions schema hschema)
      (fun f hf => hlayer.closed f (Enumeration.mem_listing.mp hf)) hknowledge hclosure hgrounded
      hσ.determined
      (fun x hx => by obtain ⟨c, hc⟩ := hσ.constants x hx; rw [hc]; exact ⟨rfl, rfl⟩)
      hσ.required hσ.entailed
    have hsame : g.adds = a.adds := by rw [hinstance.adds, hσ.instance_of.adds]
    exact (hspec g hg f (hsame ▸ hfa)).resolve_left hnew

theorem Grows.raised (hp : p.Proper) {layer next : State} (h : Grows p layer next)
    (hlayer : layer.Proper) :
    Raised p layer next := by
  obtain ⟨added, hne, hadded, rfl⟩ := h
  have hproper : ∀ f ∈ added, f.isProper :=
    fun f hf => (closed_of_mem_additions hp hlayer hadded hf).1
  constructor
  · intro f
    rw [State.mem_insertAll hproper, mem_additions_iff hp hlayer hadded]
    by_cases hf : f ∈ layer.facts <;> simp [hf]
  · obtain ⟨f, hf⟩ := List.exists_mem_of_ne_nil added hne
    exact ⟨f, (State.mem_insertAll hproper).mpr (Or.inl hf),
      ((mem_additions_iff hp hlayer hadded).mp hf).1⟩

/-- Chains of a relation with one value for each argument go the same way. -/
theorem prefix_of_chains {R : State → State → Prop} (hunique : ∀ {a b c}, R a b → R a c → b = c)
    {as bs : List State} (has : as.IsChain R) (hbs : bs.IsChain R) (hhead : as.head? = bs.head?)
    (hlast : ∀ b ∈ bs.getLast?, ∀ c, ¬R b c) : as <+: bs := by
  -- induction on the chain that is claimed to be shorter; the other one ends where nothing is
  -- related any more
  induction as generalizing bs with
  | nil => exact List.nil_prefix
  | cons a as ih =>
      cases bs with
      | nil => cases hhead
      | cons b bs =>
          obtain rfl : a = b := Option.some.inj hhead
          refine List.cons_prefix_cons.mpr ⟨rfl, ?_⟩
          obtain ⟨hfirst, has⟩ := List.isChain_cons.mp has
          obtain ⟨hfirst', hbs⟩ := List.isChain_cons.mp hbs
          cases as with
          | nil => exact List.nil_prefix
          | cons a' as =>
              have hstep := hfirst a' rfl
              cases bs with
              | nil => exact absurd hstep (hlast a rfl a')
              | cons b' bs =>
                  refine ih has hbs ?_ hlast
                  rw [hunique hstep (hfirst' b' rfl)]
                  rfl

theorem Grows.unique {layer next next' : State} (h : Grows p layer next)
    (h' : Grows p layer next') :
    next = next' := by
  obtain ⟨added, -, hadded, rfl⟩ := h
  obtain ⟨added', -, hadded', rfl⟩ := h'
  rw [Except.ok.inj (hadded.symm.trans hadded')]

end RelaxedGraph

namespace RecordedGraph

open RelaxedGraph
  (Call Response additions levelWhere matchesGoal FirstIn IsGoalLevel IsLargestLevel IsWhole
  addableCount)

variable {p : Problem} {s : State} {g next whole : RecordedGraph}

/-! ## The first layers of the whole graph -/

/-- No layer has been raised above the top of a graph that has leveled off. -/
theorem Recorded.not_grows (h : Recorded p s g) (hleveled : g.leveledOff = true) (layer : State) :
    ¬RelaxedGraph.Grows p g.top layer := by
  rintro ⟨added, hne, hadded, -⟩
  exact hne (Except.ok.inj (hadded.symm.trans (h.leveled hleveled)))

/-- **The layers of a graph are the first ones of the whole graph.** -/
theorem Recorded.layers_isPrefix (h : Recorded p s g) (hwhole : Recorded p s whole)
    (hleveled : whole.leveledOff = true) : g.layers <+: whole.layers := by
  refine RelaxedGraph.prefix_of_chains (fun h h' => h.unique h') h.grows hwhole.grows ?_ ?_
  · exact congrArg some (h.first.trans hwhole.first.symm)
  · intro top htop
    rw [RelaxedGraph.getLast?_layers] at htop
    obtain rfl := Option.some.inj htop
    exact hwhole.not_grows hleveled

theorem Recorded.layers_eq (h : Recorded p s g) (hg : g.leveledOff = true)
    (hwhole : Recorded p s whole) (hleveled : whole.leveledOff = true) : g.layers = whole.layers :=
  (h.layers_isPrefix hwhole hleveled).eq_of_length_le (hwhole.layers_isPrefix h hg).length_le

theorem Recorded.exists_additions (h : Recorded p s whole) (hleveled : whole.leveledOff = true)
    {layer : State} (hlayer : layer ∈ whole.layers) : ∃ added, additions p layer = .ok added := by
  obtain ⟨i, hi, rfl⟩ := List.mem_iff_getElem.mp hlayer
  by_cases hnext : i + 1 < whole.layers.length
  · obtain ⟨added, -, hadded, -⟩ := List.isChain_iff_getElem.mp h.grows i hnext
    exact ⟨added, hadded⟩
  · have hlast := RelaxedGraph.getLast?_layers whole.toRelaxedGraph
    rw [List.getLast?_eq_getElem?, show whole.layers.length - 1 = i by omega,
      List.getElem?_eq_getElem hi] at hlast
    exact ⟨[], Option.some.inj hlast ▸ h.leveled hleveled⟩

theorem Recorded.isWhole (hp : p.Proper) (h : Recorded p s whole)
    (hleveled : whole.leveledOff = true) :
    IsWhole p s whole.layers := by
  refine ⟨congrArg some h.first, ?_, ?_⟩
  · exact h.grows.imp_of_mem_imp fun layer next hlayer _ hgrows =>
      hgrows.raised hp (h.proper_layers layer hlayer)
  · intro top htop a ha f hf
    rw [RelaxedGraph.getLast?_layers] at htop
    obtain rfl := Option.some.inj htop
    by_contra hnew
    have hadded :=
      (RelaxedGraph.mem_additions_iff hp h.proper (h.leveled hleveled)).mpr ⟨hnew, a, ha, hf⟩
    exact absurd hadded List.not_mem_nil

/-! ## Loops -/

theorem expand_of_leveledOff (hleveled : g.leveledOff = true) : expand p g = (.ok false, g) :=
  if_pos hleveled

/-- **What a loop finds is what a look at the whole graph finds**, where what is found in some first
layers is found in all. -/
theorem Runs.answer_eq {α : Type} {look : Nat → RecordedGraph → Except Error (Option α)}
    {seen : Nat} {answer : Except Error (Option α)} (hp : p.Proper)
    (found : List State → Except Error (Option α))
    (hlook : ∀ seen g, Recorded p s g → found (g.layers.take seen) = .ok none →
      look seen g = found g.layers)
    (hfound : ∀ layers more, found layers ≠ .ok none → found (layers ++ more) = found layers)
    (hwhole : Recorded p s whole) (hleveled : whole.leveledOff = true)
    (hruns : Runs p look seen g answer next) (h : Recorded p s g)
    (hseen : found (g.layers.take seen) = .ok none) : answer = found whole.layers := by
  have hextend : ∀ {g}, Recorded p s g → found g.layers ≠ .ok none →
      found whole.layers = found g.layers := by
    intro g h hne
    obtain ⟨more, hmore⟩ := h.layers_isPrefix hwhole hleveled
    rw [← hmore]
    exact hfound _ _ hne
  induction hruns with
  | failed hlooked | found hlooked =>
      rw [hlook _ _ h hseen] at hlooked
      rw [hextend h (by rw [hlooked]; nofun), hlooked]
  | refused _ hexpand =>
      -- an expansion that is refused here would have been refused on the way to the whole graph
      obtain ⟨-, hfailed⟩ := expand_eq_error hexpand
      obtain ⟨_, hadded⟩ := hwhole.exists_additions hleveled
        ((h.layers_isPrefix hwhole hleveled).subset (RelaxedGraph.top_mem_layers _))
      cases hadded.symm.trans hfailed
  | leveled hlooked hexpand =>
      rw [hlook _ _ h hseen] at hlooked
      obtain ⟨-, -, hlevels⟩ := h.toGrown.expand hp (toRelaxedGraph_expand hexpand)
      obtain ⟨hend, hsame⟩ := hlevels rfl
      rw [← (h.expand hp hexpand).layers_eq hend hwhole hleveled, hsame, hlooked]
  | grown hlooked hexpand _ ih =>
      rw [hlook _ _ h hseen] at hlooked
      rcases expand_eq_ok hexpand with ⟨hfalse, -⟩ | ⟨added, -, -, -, hsame, -⟩
      · cases hfalse
      · refine ih (h.expand hp hexpand) ?_
        rw [hsame, RelaxedGraph.size, List.take_left]
        exact hlooked

/-! ## Answers -/

section

variable (hp : p.Proper) (hwhole : Recorded p s whole) (hleveled : whole.leveledOff = true)
  {calls : Nat}

include hp hwhole hleveled

theorem expand_tells (h : Recorded p s g) {answer : Except Error Bool}
    (hexpand : expand p g = (answer, next)) :
    ∃ b, answer = .ok b ∧ (b = true ↔ g.size < whole.size) := by
  have hnext := (h.expand hp hexpand).layers_isPrefix hwhole hleveled
  cases answer with
  | error e =>
      obtain ⟨-, hfailed⟩ := expand_eq_error hexpand
      obtain ⟨_, hadded⟩ := hwhole.exists_additions hleveled
        ((h.layers_isPrefix hwhole hleveled).subset (RelaxedGraph.top_mem_layers _))
      cases hadded.symm.trans hfailed
  | ok b =>
      refine ⟨b, rfl, ?_⟩
      rcases expand_eq_ok hexpand with ⟨rfl, hsame, -⟩ | ⟨added, rfl, -, -, hsame, -⟩
      · obtain ⟨-, -, hlevels⟩ := h.toGrown.expand hp (toRelaxedGraph_expand hexpand)
        have hall := (h.expand hp hexpand).layers_eq (hlevels rfl).1 hwhole hleveled
        rw [RelaxedGraph.size, RelaxedGraph.size, ← hall, hsame]
        simp
      · have hle := hnext.length_le
        rw [hsame, List.length_append] at hle
        exact iff_of_true rfl hle

theorem levelOf_tells (h : Recorded p s g) {t : Term} (ht : t.isProper)
    {answer : Except Error (Option Nat)} (hlevel : levelOf p calls t g = some (answer, next)) :
    ∃ n, answer = .ok n ∧
      FirstIn whole.layers (fun layer => t ∈ layer.facts.map Atom.toTerm) n := by
  have hindexable := Term.isIndexable_of_isProper ht
  have hanswer := (runs_of_expandWhile hlevel).answer_eq hp (levelWhere (·.lookUp t) 0)
    (fun _ _ h _ => h.recorded t) (fun _ more hne => RelaxedGraph.levelWhere_append_of_ne hne more)
    hwhole
    hleveled h rfl
  have hall : ∀ layer ∈ whole.layers, ∃ b, layer.lookUp t = .ok b :=
    fun layer _ => ⟨_, lookUp_of_isIndexable hindexable layer⟩
  obtain ⟨n, hn⟩ := RelaxedGraph.exists_levelWhere hall 0
  refine ⟨n, hanswer.trans hn, RelaxedGraph.firstIn_of_levelWhere ?_ hn⟩
  intro layer hlayer b hb
  rw [lookUp_of_isIndexable hindexable] at hb
  rw [← Except.ok.inj hb, (hwhole.proper_layers layer hlayer).containsTerm_iff]

theorem goalLevelOf_tells (h : Recorded p s g) {goal : Atom} (hgoal : goal.isProper)
    {answer : Except Error (Option Nat)}
    (hlevel : goalLevelOf p calls goal g = some (answer, next)) :
    ∃ n, answer = .ok n ∧ IsGoalLevel p whole.layers goal n := by
  have hrule : (p.rules.any fun r => r.consequent.key == goal.key) ↔
      ∃ r ∈ p.rules, r.consequent.key = goal.key := by
    rw [List.any_eq_true]
    exact exists_congr fun r => and_congr_right fun _ => Atom.key_beq_iff (Or.inr hgoal)
  -- a goal that a rule concludes has level zero, and any other is looked for layer by layer
  rw [goalLevelOf, KnowledgeBase.requireKey_eq_ok hgoal] at hlevel
  dsimp only at hlevel
  split at hlevel
  · rename_i hany
    cases hlevel
    exact ⟨some 0, rfl, Or.inl ⟨hrule.mp hany, rfl⟩⟩
  · rename_i hany
    have hanswer := (runs_of_expandWhile hlevel).answer_eq hp (levelWhere (matchesGoal p goal) 0)
      (fun _ _ _ hmissed => RelaxedGraph.levelWhere_drop hmissed)
      (fun _ more hne => RelaxedGraph.levelWhere_append_of_ne hne more) hwhole hleveled h rfl
    have hall : ∀ layer ∈ whole.layers, ∃ b, matchesGoal p goal layer = .ok b := fun layer hlayer =>
      RelaxedGraph.exists_matchesGoal (hwhole.proper_layers layer hlayer) hgoal
    obtain ⟨n, hn⟩ := RelaxedGraph.exists_levelWhere hall 0
    refine ⟨n, hanswer.trans hn,
      Or.inr ⟨mt hrule.mpr hany, RelaxedGraph.firstIn_of_levelWhere ?_ hn⟩⟩
    exact fun layer hlayer b hb =>
      RelaxedGraph.matchesGoal_eq (hwhole.proper_layers layer hlayer) hgoal hb

theorem goalLevelFrom_tells (h : Recorded p s g) {goals : List Atom}
    (hgoals : ∀ goal ∈ goals, goal.isProper) {worst : Nat} {answer : Except Error (Option Nat)}
    (hlevel : goalLevelFrom p calls worst goals g = some (answer, next)) :
    (answer = .ok none ∧ ∃ goal ∈ goals, IsGoalLevel p whole.layers goal none) ∨
      ∃ n, answer = .ok (some n) ∧ worst ≤ n ∧
      (∀ goal ∈ goals, ∃ m ≤ n, IsGoalLevel p whole.layers goal (some m)) ∧
        (n = worst ∨ ∃ goal ∈ goals, IsGoalLevel p whole.layers goal (some n)) := by
  -- induction on the goals, with the worst level so far as an argument
  induction goals generalizing worst g with
  | nil =>
      cases hlevel
      exact Or.inr ⟨worst, rfl, le_rfl, fun _ hmem => absurd hmem List.not_mem_nil, Or.inl rfl⟩
  | cons goal rest ih =>
      obtain ⟨hgoal, hrest⟩ := List.forall_mem_cons.mp hgoals
      rw [goalLevelFrom] at hlevel
      split at hlevel
      · rename_i level mid hfirst
        obtain ⟨n, hn, hgoalLevel⟩ := goalLevelOf_tells hp hwhole hleveled h hgoal hfirst
        obtain rfl := Except.ok.inj hn
        have hmid : Recorded p s mid :=
          invariant_of_goalLevelOf (fun h hexpand => h.expand hp hexpand) h hfirst
        rcases ih hmid hrest hlevel with
            ⟨hnone, other, hother, hspec⟩ | ⟨n, hn, hworst, hall, hattained⟩
        · exact Or.inl ⟨hnone, other, List.mem_cons_of_mem _ hother, hspec⟩
        · refine Or.inr ⟨n, hn, le_of_max_le_left hworst,
            List.forall_mem_cons.mpr ⟨⟨level, le_of_max_le_right hworst, hgoalLevel⟩, hall⟩, ?_⟩
          rcases hattained with rfl | ⟨other, hother, hspec⟩
          · rcases max_choice worst level with hmax | hmax <;> rw [hmax]
            · exact Or.inl rfl
            · exact Or.inr ⟨goal, List.mem_cons_self, hgoalLevel⟩
          · exact Or.inr ⟨other, List.mem_cons_of_mem _ hother, hspec⟩
      · rename_i hother
        obtain ⟨n, rfl, hgoalLevel⟩ := goalLevelOf_tells hp hwhole hleveled h hgoal hlevel
        cases n with
        | none => exact Or.inl ⟨rfl, goal, List.mem_cons_self, hgoalLevel⟩
        | some n => exact absurd hlevel (hother n next)

end

/-- What a call of a graph tells of the whole graph. -/
def Tells (p : Problem) (whole g : RecordedGraph) : Call → Response → Prop
  | .expand, .grown b => b = true ↔ g.size < whole.size
  | .level, .leveled => True
  | .levelOf t, .level n => FirstIn whole.layers (fun layer => t ∈ layer.facts.map Atom.toTerm) n
  | .goalLevel goals, .level n => IsLargestLevel p whole.layers goals n
  | _, _ => False

theorem perform_tells (hp : p.Proper) (hwhole : Recorded p s whole)
    (hleveled : whole.leveledOff = true) (h : Recorded p s g) {calls : Nat} {call : Call}
    (hcall : call.Proper) {answer : Except Error Response}
    (hperform : perform p calls g call = some (answer, next)) :
    ∃ response, answer = .ok response ∧ Tells p whole g call response := by
  cases call with
  | expand =>
      obtain ⟨_, hexpand, rfl⟩ := exists_of_perform_expand hperform
      obtain ⟨b, rfl, hb⟩ := expand_tells hp hwhole hleveled h hexpand
      exact ⟨.grown b, rfl, hb⟩
  | level =>
      obtain ⟨_, hlevel, rfl⟩ := exists_of_map_eq_some hperform
      obtain ⟨_, hexpand, rfl⟩ := exists_of_map_eq_some hlevel
      have hanswer := (runs_of_expandWhile hexpand).answer_eq hp (fun _ => .ok none)
        (fun _ _ _ _ => rfl) (fun _ _ _ => rfl) hwhole hleveled h rfl
      rw [hanswer]
      exact ⟨.leveled, rfl, trivial⟩
  | levelOf t =>
      obtain ⟨_, hlevel, rfl⟩ := exists_of_map_eq_some hperform
      obtain ⟨n, rfl, hn⟩ := levelOf_tells hp hwhole hleveled h hcall hlevel
      exact ⟨.level n, rfl, hn⟩
  | goalLevel goals =>
      obtain ⟨_, hlevel, rfl⟩ := exists_of_map_eq_some hperform
      rcases goalLevelFrom_tells hp hwhole hleveled h hcall hlevel with
        ⟨rfl, hnone⟩ | ⟨n, rfl, -, hall, hattained⟩
      · exact ⟨.level none, rfl, hnone⟩
      · exact ⟨.level (some n), rfl, hall, hattained⟩

theorem Tells.unique {call : Call} (hcall : call ≠ .expand) {response response' : Response}
    {g' : RecordedGraph} (h : Tells p whole g call response)
    (h' : Tells p whole g' call response') : response = response' := by
  cases call with
  | expand => exact absurd rfl hcall
  | level =>
      cases response <;> cases response' <;> first | rfl | exact False.elim h | exact False.elim h'
  | levelOf t =>
      cases response <;> cases response' <;>
        first
        | exact congrArg _ (FirstIn.unique h h')
        | exact False.elim h
        | exact False.elim h'
  | goalLevel goals =>
      cases response <;> cases response' <;>
        first
        | exact congrArg _ (IsLargestLevel.unique h h')
        | exact False.elim h
        | exact False.elim h'

theorem eq_of_perform (hleveled : whole.leveledOff = true) {calls : Nat} {call : Call}
    {answer : Except Error Response} (hperform : perform p calls whole call = some (answer, next)) :
    next = whole := by
  refine invariant_of_perform (I := (· = whole)) ?_ rfl hperform
  rintro g next answer rfl hexpand
  rw [expand_of_leveledOff hleveled] at hexpand
  exact (Prod.mk.inj hexpand).2.symm

/-! ## The whole graph -/

/-- What a graph has in common with the whole one: its first layers, all of them where it has
leveled off, and the answers to questions, which are about the layers of the whole graph. -/
structure Agrees (p : Problem) (s : State) (whole g : RecordedGraph) : Prop where
  layers_isPrefix : g.layers <+: whole.layers
  layers_eq : g.leveledOff = true → g.layers = whole.layers
  answer : ∀ call : Call, call.Proper → ∀ calls, addableCount p s < calls → ∃ response next,
    perform p calls g call = some (.ok response, next) ∧
      RelaxedGraph.perform p g.toRelaxedGraph call = (.ok response, next.toRelaxedGraph) ∧
      Tells p whole g call response ∧
      (call = .level → next.leveledOff = true ∧ next.layers = whole.layers) ∧
      (call ≠ .expand → perform p calls whole call = some (.ok response, whole))

/-- **Whatever has been asked of a graph before, it answers like the whole graph**, which is made by
expanding a fresh one until it has leveled off, where no grounding fails on the way. -/
theorem Reached.agrees_with_fresh (hp : p.Proper) (hs : s.Proper) {calls : Nat}
    (hwhole : perform p calls (RecordedGraph.start s) .level = some (.ok .leveled, whole))
    (h : Reached p s g) :
    whole.leveledOff = true ∧ IsWhole p s whole.layers ∧ Agrees p s whole g := by
  have hrecorded : Recorded p s whole := (Reached.call .start hwhole).recorded hp hs
  have hleveled : whole.leveledOff = true :=
    (perform_answered hp (recorded_start hs).toLayered hwhole).leveled rfl
  have hg := h.recorded hp hs
  refine ⟨hleveled, hrecorded.isWhole hp hleveled, hg.layers_isPrefix hrecorded hleveled,
    fun hend => hg.layers_eq hend hrecorded hleveled, ?_⟩
  intro call hcall calls hcalls
  obtain ⟨_, next, hperform⟩ := exists_perform hp hg.toLayered (Nat.lt_add_right _ hcalls) call
  obtain ⟨response, rfl, htells⟩ := perform_tells hp hrecorded hleveled hg hcall hperform
  refine ⟨response, next, hperform, perform_eq hp hg hperform, htells, ?_, ?_⟩
  · rintro rfl
    have htold : Tells p whole g .level .leveled := trivial
    have hquestion : Call.level ≠ .expand := nofun
    have hend : response = .leveled := htells.unique hquestion htold
    have hnext := (perform_answered hp hg.toLayered hperform).leveled (congrArg _ hend)
    exact ⟨hnext, ((h.call hperform).recorded hp hs).layers_eq hnext hrecorded hleveled⟩
  · -- the whole graph is asked the same, and a question has one answer about it
    intro hquestion
    obtain ⟨_, same, hsame⟩ :=
      exists_perform hp hrecorded.toLayered (Nat.lt_add_right _ hcalls) call
    obtain ⟨other, rfl, htells'⟩ := perform_tells hp hrecorded hleveled hrecorded hcall hsame
    rw [hsame, eq_of_perform hleveled hsame, htells.unique hquestion htells']

/-- What is at hand can be taken. -/
def takeWhatIsAtHand : Except Error Problem := do
  let take ← Worlds.action "Take" ["x"] [("At", ["x"])] [] [("Has", ["x"])] [("At", ["x"])] []
  Problem.make? (.str "take_what_is_at_hand") (← Worlds.facts [("At", ["A"])]) [.inl take]
    (← Worlds.goal [("Has", ["A"])])

/-- The graph of one thing at hand, after one expansion. -/
theorem agrees_with_fresh_takeWhatIsAtHand : ∃ p whole g, takeWhatIsAtHand = .ok p ∧ p.Proper ∧
    p.initialState.Proper ∧
    perform p 2 (start p.initialState) .level = some (.ok .leveled, whole) ∧
    expand p (start p.initialState) = (.ok true, g) ∧ Reached p p.initialState g ∧
    whole.leveledOff = true ∧ IsWhole p p.initialState whole.layers ∧
    Agrees p p.initialState whole g := by
  obtain ⟨p, htake, hproper⟩ : ∃ p, takeWhatIsAtHand = .ok p ∧ p.Proper :=
    Problem.exists_ok_of_isProper (by decide +kernel)
  -- matching goes through functions whose recursion is not structural
  have hanswer :
      ((takeWhatIsAtHand.toOption.bind fun p => perform p 2 (start p.initialState) .level).bind
      fun found => found.1.toOption) = some .leveled := by
    decide +kernel
  have hanswer' :
      (takeWhatIsAtHand.toOption.bind fun p => (expand p (start p.initialState)).1.toOption) =
      some true := by
    decide +kernel
  rw [htake] at hanswer hanswer'
  obtain ⟨⟨answer, whole⟩, hwhole, hleveled⟩ := Option.bind_eq_some_iff.mp hanswer
  obtain rfl := eq_ok_of_toOption hleveled
  rcases hexpand : expand p (start p.initialState) with ⟨answer, g⟩
  have hgrown : (expand p (start p.initialState)).1.toOption = some true := hanswer'
  rw [hexpand] at hgrown
  obtain rfl := eq_ok_of_toOption hgrown
  have hperform : perform p 0 (start p.initialState) .expand = some (.ok (.grown true), g) := by
    rw [perform, hexpand]
    rfl
  have hreached : Reached p p.initialState g := .call .start hperform
  exact ⟨p, whole, g, htake, hproper, hproper.initialState, hwhole, hexpand, hreached,
    hreached.agrees_with_fresh hproper hproper.initialState hwhole⟩

end RecordedGraph

end HornPlan
