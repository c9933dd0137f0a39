import HornPlan.RelaxedGraph

/-!
# Relaxed planning graphs with a record of levels

A graph can keep, beside its layers, the level at which each fact first appeared.  The level of a
fact is then looked up, and the layers are searched only for goals.

A question is a loop: look for an answer, and expand the graph where there is none yet.  Nothing in
the loop itself says that it comes to an end, so it is given the number of expansions that it may
make and answers nothing when it needs more.
-/

namespace HornPlan

namespace RelaxedGraph

/-- What a graph is asked to do. -/
inductive Call
  | expand
  | level
  | levelOf (t : Term)
  | goalLevel (goals : List Atom)

/-- What a graph answers: whether it has grown, nothing, or a level where there is one. -/
inductive Response
  | grown (b : Bool)
  | leveled
  | level (level : Option Nat)
  deriving DecidableEq

/-- The answer of a graph without a record to a call. -/
def perform (p : Problem) (g : RelaxedGraph) : Call → Answer Response
  | .expand => (expand p g).map (Except.map .grown) id
  | .level => (level p g).map (Except.map fun _ => .leveled) id
  | .levelOf t => (levelOf p t g).map (Except.map .level) id
  | .goalLevel goals => (goalLevel p goals g).map (Except.map .level) id

end RelaxedGraph

/-- A relaxed graph, and the level of each fact in it. -/
structure RecordedGraph extends RelaxedGraph where
  levels : List (Term × Nat)

namespace RecordedGraph

/-- The answer to a question, and the graph it leaves behind. -/
abbrev Answer (α : Type) := Except Error α × RecordedGraph

/-- The graph with one layer. -/
def start (s : State) : RecordedGraph :=
  ⟨.start s, (s.others ++ s.facts.map Atom.toTerm).map (·, 0)⟩

/-- Adds a layer, and records its facts; false when the graph has leveled off.  Of two levels
recorded for a fact the later one counts. -/
def expand (p : Problem) (g : RecordedGraph) : Answer Bool :=
  if g.leveledOff then (.ok false, g)
  else
    match RelaxedGraph.additions p g.top with
    | .error error => (.error error, g)
    | .ok [] => (.ok false, { g with leveledOff := true })
    | .ok added =>
      (.ok true, { g with
        later := g.later ++ [g.top.insertAll added]
        levels := added.map (fun f => (f.toTerm, g.size)) ++ g.levels })

/-- The recorded level of a term. -/
def recorded? (g : RecordedGraph) (t : Term) : Except Error (Option Nat) :=
  if t.isIndexable then .ok (g.levels.lookup t) else .error .wrongType

/-! ## Questions -/

/-- Expands until `look` answers, or the graph has leveled off; nothing when that takes more than
`calls` expansions.  `look` is told how many layers were there when it last looked. -/
def expandWhile {α : Type} (p : Problem) (look : Nat → RecordedGraph → Except Error (Option α)) :
    (calls seen : Nat) → RecordedGraph → Option (Answer (Option α))
  | calls, seen, g =>
    match look seen g with
    | .error error => some (.error error, g)
    | .ok (some answer) => some (.ok (some answer), g)
    | .ok none =>
      match calls with
      | 0 => none
      | calls + 1 =>
        match expand p g with
        | (.error error, next) => some (.error error, next)
        | (.ok false, next) => some (.ok none, next)
        | (.ok true, next) => expandWhile p look calls g.size next

/-- Expands until the graph has leveled off. -/
def level (p : Problem) (calls : Nat) (g : RecordedGraph) : Option (Answer Unit) :=
  (expandWhile (α := Unit) p (fun _ _ => .ok none) calls 0 g).map
    (Prod.map (Except.map fun _ => ()) id)

/-- The recorded level of a term, once it is there. -/
def levelOf (p : Problem) (calls : Nat) (t : Term) (g : RecordedGraph) :
    Option (Answer (Option Nat)) :=
  expandWhile p (fun _ g => g.recorded? t) calls 0 g

/-- The first layer that matches a goal, if any layer of the whole graph does.  Each layer is looked
at once. -/
def goalLevelOf (p : Problem) (calls : Nat) (goal : Atom) (g : RecordedGraph) :
    Option (Answer (Option Nat)) :=
  match goal.requireKey with
  | .error error => some (.error error, g)
  | .ok () =>
    if p.rules.any fun r => r.consequent.key == goal.key then some (.ok (some 0), g)
    else
      expandWhile p (fun seen g => RelaxedGraph.levelWhere (RelaxedGraph.matchesGoal p goal) seen
        (g.layers.drop seen)) calls 0 g

/-- The largest of the levels of some goals and `worst`; nothing when one of them matches no layer.
The expansions are counted for each goal anew. -/
def goalLevelFrom (p : Problem) (calls : Nat) :
    (worst : Nat) → List Atom → RecordedGraph → Option (Answer (Option Nat))
  | worst, [], g => some (.ok (some worst), g)
  | worst, goal :: rest, g =>
    match goalLevelOf p calls goal g with
    | some (.ok (some level), g) => goalLevelFrom p calls (max worst level) rest g
    | other => other

/-! ## Calls -/

/-- The answer to a call; nothing when one of its loops takes more than `calls` expansions. -/
def perform (p : Problem) (calls : Nat) (g : RecordedGraph) :
    RelaxedGraph.Call → Option (Answer RelaxedGraph.Response)
  | .expand => some ((expand p g).map (Except.map .grown) id)
  | .level => (level p calls g).map (Prod.map (Except.map fun _ => .leveled) id)
  | .levelOf t => (levelOf p calls t g).map (Prod.map (Except.map .level) id)
  | .goalLevel goals => (goalLevelFrom p calls 0 goals g).map (Prod.map (Except.map .level) id)

end RecordedGraph

end HornPlan
