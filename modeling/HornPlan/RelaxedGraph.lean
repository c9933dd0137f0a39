import HornPlan.Problem

/-!
# Relaxed planning graphs

The first layer of a graph is a state.  Each further layer adds what every action adds whose
required facts are in the layer before; deletions and forbidden facts are ignored, so layers only
grow until the graph levels off.

The layer at which a fact first appears is a lower bound on the number of actions that make it true.
The largest such level over the goals estimates the distance to the goal, and a goal that matches no
layer cannot be reached.  A goal whose predicate some rule concludes counts as level zero, since
actions alone do not bound it.

A question expands the graph as far as it needs to, so each one returns the graph it leaves behind,
also when it fails.
-/

namespace HornPlan

/-- The layers above a state, as far as they have been built. -/
structure RelaxedGraph where
  first : State
  later : List State
  leveledOff : Bool

namespace RelaxedGraph

/-- The graph with one layer. -/
def start (s : State) : RelaxedGraph :=
  ⟨s, [], false⟩

/-- The graph with one layer, for a problem whose rules can be looked up by what they conclude. -/
def start? (p : Problem) (s : State) : Except Error RelaxedGraph := do
  p.rules.forM fun r => r.consequent.requireKey
  return start s

/-- The layers, in order. -/
def layers (g : RelaxedGraph) : List State :=
  g.first :: g.later

/-- The number of layers. -/
def size (g : RelaxedGraph) : Nat :=
  g.layers.length

/-- The last layer. -/
def top (g : RelaxedGraph) : State :=
  g.later.getLast?.getD g.first

/-! ## Expansion -/

/-- The facts that the actions enabled in a layer add to it. -/
def additions (p : Problem) (layer : State) : Except Error (List Atom) := do
  let listing ← p.order.factsByPredicate layer
  let instances ← p.actions.mapM fun a => a.groundings listing p.knowledge
  return (instances.flatten.flatMap fun a => a.adds).filter fun f => !layer.holdsFact f

/-- The answer to a question, and the graph it leaves behind. -/
abbrev Answer (α : Type) := Except Error α × RelaxedGraph

/-- Adds a layer; false when the graph has leveled off. -/
def expand (p : Problem) (g : RelaxedGraph) : Answer Bool :=
  if g.leveledOff then (.ok false, g)
  else
    match additions p g.top with
    | .error error => (.error error, g)
    | .ok [] => (.ok false, { g with leveledOff := true })
    | .ok added => (.ok true, { g with later := g.later ++ [g.top.insertAll added] })

/-- The constants that can stand for a parameter of an action. -/
def objects (p : Problem) (s : State) : List Constant :=
  let clauseAtoms := p.kb.clauses.flatMap fun c => c.consequent :: c.antecedents
  let schemaAtoms := p.actions.flatMap fun a => a.signature :: a.atoms
  ((s.facts ++ clauseAtoms ++ schemaAtoms).flatMap Atom.constants).eraseDups

/-- A bound on the number of layers: the facts that instances of the actions over the constants can
add, and one more. -/
def layerBound (p : Problem) (s : State) : Nat :=
  p.actions.foldr (fun a bound =>
    Nat.pow (objects p s).length a.parameters.length * a.adds.length + bound) 1

/-- Expands until `found` answers for a graph, or the graph has leveled off; at most `layers`
times. -/
def expandUntil {α : Type} (p : Problem) (found : RelaxedGraph → Except Error (Option α)) :
    (layers : Nat) → RelaxedGraph → Answer (Option α)
  -- not reached when `layers` is the bound on the number of layers
  | 0, g => (found g, g)
  | layers + 1, g =>
    match found g with
    | .error error => (.error error, g)
    | .ok (some answer) => (.ok (some answer), g)
    | .ok none =>
      match expand p g with
      | (.error error, g) => (.error error, g)
      | (.ok false, g) => (.ok none, g)
      | (.ok true, g) => expandUntil p found layers g

/-- Expands until the graph has leveled off. -/
def level (p : Problem) (g : RelaxedGraph) : Answer Unit :=
  match expandUntil (α := Unit) p (fun _ => .ok none) (layerBound p g.first) g with
  | (answer, g) => (answer.map fun _ => (), g)

/-! ## Levels -/

/-- The number of the first layer that passes a test; `index` numbers the first of the list. -/
def levelWhere (passes : State → Except Error Bool) :
    (index : Nat) → List State → Except Error (Option Nat)
  | _, [] => .ok none
  | index, layer :: rest => do
    if ← passes layer then return some index else levelWhere passes (index + 1) rest

/-- The first layer that passes a test, if any layer of the whole graph does. -/
def findLevel (p : Problem) (passes : State → Except Error Bool) (g : RelaxedGraph) :
    Answer (Option Nat) :=
  expandUntil p (fun g => levelWhere passes 0 g.layers) (layerBound p g.first) g

/-- The first layer that holds a term, if any layer of the whole graph does. -/
def levelOf (p : Problem) (t : Term) (g : RelaxedGraph) : Answer (Option Nat) :=
  findLevel p (·.lookUp t) g

/-- A fact of a layer matches a goal.  A layer is searched by the predicates of its facts, and a
variable of the goal has to have a text for its name. -/
def matchesGoal (p : Problem) (goal : Atom) (layer : State) : Except Error Bool := do
  layer.requireListing
  if goal.hasListedVariable then throw .wrongType
  return (firstMatch? (p.order.facts layer) [goal] ∅).isSome

/-- The first layer that matches a goal, if any layer of the whole graph does. -/
def goalLevelOf (p : Problem) (goal : Atom) (g : RelaxedGraph) : Answer (Option Nat) :=
  match goal.requireKey with
  | .error error => (.error error, g)
  | .ok () =>
    if p.rules.any fun r => r.consequent.key == goal.key then (.ok (some 0), g)
    else findLevel p (matchesGoal p goal) g

/-- The largest of the levels of some goals and `worst`; nothing when one of them matches no
layer. -/
def goalLevelFrom (p : Problem) : (worst : Nat) → List Atom → RelaxedGraph → Answer (Option Nat)
  | worst, [], g => (.ok (some worst), g)
  | worst, goal :: rest, g =>
    match goalLevelOf p goal g with
    | (.ok (some level), g) => goalLevelFrom p (max worst level) rest g
    | (.ok none, g) => (.ok none, g)
    | (.error error, g) => (.error error, g)

/-- The level at which all goals have been matched. -/
def goalLevel (p : Problem) (goals : List Atom) (g : RelaxedGraph) : Answer (Option Nat) :=
  goalLevelFrom p 0 goals g

/-- `goalLevel` for a query as it is handed over.  A goal that is no atom fails the query, unless
one before it matches no layer. -/
def goalLevelQuery (p : Problem) (query : Query) (g : RelaxedGraph) : Answer (Option Nat) :=
  match query, query.goals? with
  | _, .ok goals => goalLevel p goals g
  | .one _, .error error => (.error error, g)
  | .all goals, .error _ =>
    match goalLevel p ((goals.takeWhile (·.atom?.isSome)).filterMap Term.atom?) g with
    | (.ok (some _), g) => (.error .unsupported, g)
    | other => other

end RelaxedGraph

/-- The estimated number of actions from a state to the goal, or nothing when the goal cannot be
reached.  A goal that is a test gives no estimate above zero. -/
def Problem.estimate (p : Problem) (s : State) : Except Error (Option Nat) :=
  match p.goal with
  | .conjunction goals => do (RelaxedGraph.goalLevel p goals (← RelaxedGraph.start? p s)).1
  | .test _ => .ok (some 0)

end HornPlan
