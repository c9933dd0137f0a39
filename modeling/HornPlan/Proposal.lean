import HornPlan.Planner
import HornPlan.Simulation
import HornPlan.Json.Printer
import HornPlan.Text.Blank

/-!
# Proposed plans

A language model may be asked for a plan.  The prompt describes the problem as JSON; the reply holds
the steps as JSON, perhaps inside a fence and among prose.  A proposal is executed before it is
believed: one that cannot be read or does not reach the goal is no plan.
-/

namespace HornPlan

/-! ## The prompt -/

/-- The parts of an action that a reader needs. -/
def Action.description (a : Action) : Json :=
  let texts (atoms : List Atom) : Json := .arr (atoms.map fun f => .str f.text)
  .obj [("name", a.name.toData),
    ("parameters", .arr (a.parameters.map fun p => .str p.toTerm.text)),
    ("requires", texts (a.requires ++ a.static)), ("forbids", texts a.forbids),
    ("adds", texts a.adds), ("deletes", texts a.deletes)]

/-- The parts of a problem that a reader needs. -/
def Problem.description (p : Problem) : Json :=
  let objects := sortedNames ((p.initialState.facts.flatMap Atom.constants).map (·.name))
  .obj [("actions", .arr (p.actions.map Action.description)),
    ("objects", .arr (objects.map .str)),
    ("init", .arr ((p.order.listing p.initialState).map fun f => .str f.text)),
    ("rules", .arr (p.rules.map fun r => .str r.text)),
    ("goal", (p.goals?.map fun goals => .arr (goals.map fun g => .str g.text)).getD .null)]

/-- All that the description of a problem names can be printed. -/
def Problem.isDescribable (p : Problem) : Bool :=
  p.initialState.isPrintable && p.rules.all Clause.isPrintable
    && (p.actions.all fun a => a.parameters.all fun q => q.toTerm.isPrintable)
    && (p.actions.all fun a => a.atoms.all Atom.isPrintable)
    && ((p.goals?.getD []).all Atom.isPrintable)

/-- The description of a problem that can be printed. -/
def Problem.description? (p : Problem) : Except Error Json :=
  if p.isDescribable then .ok p.description else .error .wrongType

/-- The request for a plan. -/
def Problem.prompt (p : Problem) : String :=
  "You are planning strictly within a given symbolic domain.\n\n"
    ++ "Facts not listed in the state are false. An action can run when everything\n"
    ++ "it requires holds and nothing it forbids holds; it then deletes its delete\n"
    ++ "list and adds its add list. Rules derive further facts from the state.\n"
    ++ "Use only the listed action names and objects, with exactly as many\n"
    ++ "arguments as the action has parameters.\n\n"
    ++ p.description.print
    ++ "\n\nRespond with JSON only, in this shape:\n"
    ++ "\x7b\"plan\": [\x7b\"name\": \"ACTION_NAME\", \"args\": [\"obj1\", \"obj2\"]\x7d]\x7d"

/-! ## The reply -/

/-- A step of a proposal: the name of an action and its arguments. -/
structure ProposedStep where
  name : String
  args : List String
  deriving DecidableEq

/-- Cuts a text before and after the first place where `pattern` occurs. -/
def cut? (pattern : List Char) : List Char → Option (List Char × List Char)
  | [] => if pattern.isEmpty then some ([], []) else none
  | c :: text =>
    if pattern.isPrefixOf (c :: text) then some ([], (c :: text).drop pattern.length)
    else (cut? pattern text).map fun (before, after) => (c :: before, after)

/-- The part of a reply that should be JSON: what stands between the fence and its end, or what
starts with the first brace, or everything. -/
def jsonPart (reply : List Char) : List Char :=
  match cut? "```json".toList reply with
  | some (_, fenced) =>
    match cut? "```".toList fenced with
    | some (inside, _) => inside
    | none => fenced
  | none =>
    match cut? ['\x7b'] reply with
    | some (_, after) => '\x7b' :: after
    | none => reply

/-- Reads a step. -/
def ProposedStep.ofData? (index : Nat) (document : Json) : Except ReplyFault ProposedStep :=
  match (document.field? "name").bind Json.text? with
  | none => .error (.unnamedStep index)
  | some name =>
    match ((document.field? "args").getD (.arr [])).items?.bind
        fun items => items.mapM Json.text? with
    | none => .error (.badArguments index)
    | some args => .ok ⟨name, args⟩

/-- Reads the steps in a reply.  What follows the first document is not looked at. -/
def parsePlan (reply : String) : Except ReplyFault (List ProposedStep) :=
  match Json.readLeading? (Text.trim (jsonPart reply.toList)) with
  | .error error => .error (.unreadable error)
  | .ok (document, _) =>
    match (document.field? "plan").bind Json.items? with
    | none => .error .noPlan
    | some items => items.zipIdx.mapM fun (item, i) => ProposedStep.ofData? i item

/-! ## Judging a proposal -/

/-- A proposed step as a step of a simulation. -/
def ProposedStep.toStep (step : ProposedStep) : Step :=
  .named step.name step.args

/-- The plan that a reply proposes, if it can be read and reaches the goal.  There is no reply
without a description of the problem. -/
def Problem.judge (p : Problem) (reply : String) : Except Error PlanResult :=
  let text := String.ofList (Text.trim reply.toList)
  if !p.isDescribable then .error .wrongType else
  match parsePlan text with
  | .error fault => .ok (.notFound (.unreadable (.reply fault)) 0 none)
  | .ok proposed => do
    let steps := proposed.map ProposedStep.toStep
    let report ← p.simulate steps
    if report.accepted then
      -- every step resolved in the simulation, so that it resolves again
      let actions ← steps.mapM p.resolve
      return .found (← planFrom p.initialState actions 0)
    else return .notFound (.rejected report.message) 0 none

end HornPlan
