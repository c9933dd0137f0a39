import HornPlan.Action

/-!
# Planning problems

A problem starts from clauses: their facts are the initial state, and all of them make the
background knowledge that answers the static conditions of actions.  It has a library of action
schemas and a goal, which is a conjunction or a test of states.  A conjunction is asked of the facts
of a state together with the rules of the problem.

A problem says in which order the facts of a state are met, which is no matter of the set.  Nothing
in a problem depends on it where texts tell the facts of a state apart.

The name of a problem is a text, or what a document has in its place.
-/

namespace HornPlan

/-- What a plan has to reach: a conjunction that holds, or a state that passes a test. -/
inductive Goal
  | conjunction (goals : List Atom)
  | test (passes : State → Except Error Bool)

/-- A planning problem, and the order in which the facts of states are met.  The entailed facts are
computed once, when they are first needed. -/
structure Problem where
  name : Json
  kb : KnowledgeBase
  initialState : State
  actions : List Action
  goal : Goal
  order : Enumeration
  entailed : Thunk (Except Error (List Atom))
  initialState_eq : initialState = .ofList kb.facts
  entailed_eq : entailed.get = kb.closure

namespace Problem

/-! ## Making a problem -/

/-- The problem of checked parts, with the facts of states in the order of their codes. -/
def ofParts (name : Json) (kb : KnowledgeBase) (actions : List Action) (goal : Goal) : Problem :=
  ⟨name, kb, .ofList kb.facts, actions, goal, .byCode, Thunk.mk fun _ => kb.closure, rfl, rfl⟩

/-- The problem with the facts of states met in another order. -/
def under (p : Problem) (e : Enumeration) : Problem :=
  { p with order := e }

/-- A goal as a caller states it. -/
inductive GoalStatement
  | query (query : Query)
  | test (passes : State → Except Error Bool)

/-- Reads a goal.  A lone term that is no atom cannot be read as a list. -/
def GoalStatement.goal? : GoalStatement → Except Error Goal
  | .test passes => .ok (.test passes)
  | .query (.one goal) =>
    match goal.atom? with
    | some a => .ok (.conjunction [a])
    | none => .error .wrongType
  | .query (.all goals) => do
    let goals ← goals.mapM fun goal =>
      match goal.atom? with
      | some a => Except.ok a
      | none => .error (.schema (.goalNotAtom goal))
    return .conjunction goals

/-- An action, or what stands in the place of one. -/
abbrev ActionEntry := Action ⊕ Term

/-- Reads what stands for an action. -/
def ActionEntry.action? : ActionEntry → Except Error Action
  | .inl a => .ok a
  | .inr t => .error (.schema (.notAction t))

/-- Reads what stands for an action, which is to be found by its name. -/
def ActionEntry.named? (entry : ActionEntry) : Except Error Action := do
  let a ← entry.action?
  if a.name.isIndexable then return a else throw .wrongType

/-- Makes a problem: the clauses are read and told, then the actions, then the goal.  The facts of
the initial state have to be such that they can be looked up. -/
def make? (name : Json) (clauses : List Statement) (actions : List ActionEntry)
    (goal : GoalStatement) : Except Error Problem := do
  -- every clause is read before the first one is told
  let clauses ← clauses.mapM Statement.clause?
  let kb ← KnowledgeBase.ofClauses clauses
  let _ ← kb.asserted
  let actions ← actions.mapM ActionEntry.named?
  let goal ← goal.goal?
  return ofParts name kb actions goal

/-! ## What a problem holds -/

/-- The rules of a problem. -/
def rules (p : Problem) : List Clause :=
  p.kb.rules

/-- The goals, unless the goal is a test. -/
def goals? (p : Problem) : Option (List Atom) :=
  match p.goal with
  | .conjunction goals => some goals
  | .test _ => none

/-- The background knowledge with its entailed facts at hand, where there are any. -/
def knowledge (p : Problem) : KnowledgeBase :=
  match p.entailed.get with
  | .ok facts => { p.kb with cached := some facts }
  | .error _ => p.kb

/-- The actions of a name, in order; there are none without a name. -/
def actionsNamed (p : Problem) (name : Option Symbol) : List Action :=
  p.actions.filter fun a => some a.name == name

/-- Whether a state reaches the goal. -/
def reaches (p : Problem) (s : State) : Except Error Bool :=
  match p.goal with
  | .conjunction goals => p.order.holds s goals p.rules
  | .test passes => passes s

/-! ## Steps -/

/-- The static conditions of an action follow from the background knowledge. -/
def staticHolds (p : Problem) (a : Action) : Except Error Bool := do
  if a.static.isEmpty then return true
  return (← p.knowledge.ask a.static).1.isSome

/-- An action can be executed in a state. -/
def isExecutable (p : Problem) (a : Action) (s : State) : Except Error Bool := do
  if ← p.staticHolds a then a.isApplicable s else return false

/-- The ground actions enabled in a state: schemas in the order of the library, and the instances of
each in the order of the listing of the state. -/
def applicableActions (p : Problem) (s : State) : Except Error (List Action) := do
  let listing ← p.order.factsByPredicate s
  let instances ← p.actions.mapM fun a => do
    return (← a.groundings listing p.knowledge).filter (·.enabled s)
  return instances.flatten

/-- The ground actions enabled in a state, each with the state after it. -/
def successors (p : Problem) (s : State) : Except Error (List (Action × State)) := do
  return (← p.applicableActions s).map fun a => (a, a.result s)

/-- What kind of problem it is, in words. -/
def summary (p : Problem) : String :=
  let label := if p.name.isTruthy then " " ++ p.name.shown else ""
  "PlanningProblem" ++ label ++ "(" ++ toString p.initialState.size ++ " facts, "
    ++ toString p.rules.length ++ " rules, " ++ toString p.actions.length ++ " actions)"

end Problem

end HornPlan
