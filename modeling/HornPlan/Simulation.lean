import HornPlan.Problem

/-!
# Simulation

A plan is checked by executing it from the initial state.  Its steps are actions, or records with
the name of an action and its arguments, which an outside planner may have made up.
-/

namespace HornPlan

/-- A step of a plan: an action, or a record that names one.  A record may have anything for a name
and for its arguments. -/
inductive Step
  | action (a : Action)
  | record (name args : Json)

/-- A step with the name of an action and arguments. -/
def Step.named (name : String) (args : List String) : Step :=
  .record (.str name) (.arr (args.map .str))

/-- What a simulation found out, or where it failed. -/
inductive SimulationReport
  | goalHoldsInitially
  | goalReached
  | goalMissed
  | unresolved (step : Nat) (fault : SchemaFault)
  | staticFails (step : Nat) (action : Action)
  | notApplicable (step : Nat) (action : Action) (missing forbidden : List Atom)

namespace SimulationReport

/-- The plan was executed and reached the goal. -/
def accepted : SimulationReport → Bool
  | goalHoldsInitially | goalReached => true
  | _ => false

/-- The wording of a report. -/
def message : SimulationReport → String
  | goalHoldsInitially => "goal already holds in initial state"
  | goalReached => "goal satisfied after executing plan"
  | goalMissed => "plan finished but goal not satisfied"
  | unresolved step fault => "step " ++ toString step ++ ": " ++ fault.message
  | staticFails step action =>
    "step " ++ toString step ++ ": static conditions not entailed for " ++ action.text
  | notApplicable step action missing forbidden =>
    let part (label : String) (facts : List Atom) : List String :=
      if facts.isEmpty then [] else [label ++ ", ".intercalate (facts.map Atom.text)]
    "step " ++ toString step ++ ": preconditions not satisfied for " ++ action.text ++ ": "
      ++ "; ".intercalate (part "missing " missing ++ part "forbidden " forbidden)

/-- A report can be printed when what it names can. -/
def isPrintable : SimulationReport → Bool
  | staticFails _ action => action.isPrintable
  | notApplicable _ action missing forbidden =>
    action.isPrintable && (missing ++ forbidden).all Atom.isPrintable
  | _ => true

/-- A report that can be printed. -/
def checked (report : SimulationReport) : Except Error SimulationReport :=
  if report.isPrintable then .ok report else .error .wrongType

end SimulationReport

namespace Problem

/-- Calls schemas one after the other until one accepts the arguments.  Where none does, the reasons
are reported together. -/
def callFirst (args : List Term) : (reasons : List String) → List Action → Except Error Action
  | reasons, [] => .error (.schema (.noSchemaFits reasons))
  | reasons, schema :: rest =>
    match schema.call args with
    | .ok action => .ok action
    | .error (.schema fault) => callFirst args (reasons ++ [fault.message]) rest
    | .error (.openAction fault) => callFirst args (reasons ++ [fault.message]) rest
    | .error error => .error error

/-- The action that a step stands for.  The arguments are read before the name is looked up. -/
def resolve (p : Problem) : Step → Except Error Action
  | .action a => .ok a
  | .record name args => do
    let args ← (← args.requireItems).mapM fun arg => Term.named (.foreign (.value arg))
    match p.actionsNamed (← name.requireKey) with
    | [] => throw (.schema (.unknownAction name.shownBare))
    | schemas => callFirst args [] schemas

/-- Executes steps from a state; `index` numbers the next step. -/
def simulateFrom (p : Problem) : (index : Nat) → State → List Step → Except Error SimulationReport
  | _, s, [] => do
    return if ← p.reaches s then .goalReached else .goalMissed
  | index, s, step :: rest =>
    match p.resolve step with
    | .error (.schema fault) => .ok (.unresolved index fault)
    | .error error => .error error
    | .ok action => do
      if !(← p.staticHolds action) then (SimulationReport.staticFails index action).checked
      else if ← action.isApplicable s then p.simulateFrom (index + 1) (action.result s) rest
      else
        (SimulationReport.notApplicable index action
          (action.requires.filter fun f => !s.holdsFact f)
          (action.forbids.filter s.holdsFact)).checked

/-- Executes a plan from the initial state. -/
def simulate (p : Problem) (steps : List Step) : Except Error SimulationReport := do
  -- without steps the initial state is tested, and tested again where it fails
  if steps.isEmpty then
    if ← p.reaches p.initialState then return .goalHoldsInitially
  p.simulateFrom 1 p.initialState steps

end Problem

end HornPlan
