import HornPlan.Planner
import HornPlan.Search.Checkpoint

/-!
# Reports

What is printed about a problem, a search, its history and a plan.  A report is text; the one of a
history fails where a record lacks what it shows, and then keeps the lines before it.
-/

namespace HornPlan

/-- A line of its own. -/
def line (text : String) : String :=
  text ++ "\n"

/-- Lines, one after the other. -/
def unlines (texts : List String) : String :=
  String.join (texts.map line)

/-- The line that sets reports apart. -/
def ruler : String :=
  String.ofList (List.replicate 60 '=')

/-- A heading between two rulers. -/
def heading (title : String) : String :=
  unlines ["\n" ++ ruler, title, ruler]

/-! ## Problems -/

/-- All that the report of a problem names can be printed. -/
def Problem.isPrintable (p : Problem) : Bool :=
  p.initialState.isPrintable && p.rules.all Clause.isPrintable
    && (p.actions.all fun a => a.isPrintable) && ((p.goals?.getD []).all Atom.isPrintable)

/-- The initial state, rules, actions and goal of a problem. -/
def Problem.report (p : Problem) : String :=
  let facts := p.order.listing p.initialState
  let rules :=
    if p.rules.isEmpty then ""
    else line ("Rules (" ++ toString p.rules.length ++ "):")
      ++ unlines (p.rules.map fun r => "  " ++ r.text)
  let goal :=
    match p.goals? with
    | some goals => line ("Goal: " ++ " & ".intercalate (goals.map Atom.text))
    | none => ""
  line ("\n" ++ ruler)
    ++ line ("Problem: " ++ if p.name.isTruthy then p.name.shownBare else "(unnamed)")
    ++ line ("Initial state (" ++ toString facts.length ++ "):")
    ++ unlines (facts.map fun f => "  " ++ f.text)
    ++ rules
    ++ line ("Actions (" ++ toString p.actions.length ++ "):")
    ++ unlines (p.actions.map fun a => "  " ++ a.text)
    ++ goal
    ++ line ruler

/-- The report of a problem that can be printed. -/
def Problem.report? (p : Problem) : Except Error String :=
  if p.isPrintable then .ok p.report else .error .wrongType

/-! ## Searches -/

/-- How far a search has come. -/
def Search.report (search : Search) : Except Error String := do
  let frontier ← search.frontier.mapM fun n => do
    return "  [depth " ++ toString n.depth ++ "] " ++ (← n.name?)
  return line ("\n" ++ ruler)
    ++ line ("Step: " ++ search.step.text)
    ++ line ("Status: " ++ if search.halted then search.haltReason.text else "running")
    ++ line ("Frontier (" ++ toString search.frontier.length ++ "):")
    ++ unlines frontier
    ++ line ("Seen states: " ++ toString search.seen.length)
    ++ line ruler

/-- The line that a record of the history shows. -/
def HistoryEntry.report (entry : HistoryEntry) : Except Error String := do
  let record := entry.toData
  let produced ←
    if (← record.require "goal").isTruthy then pure "GOAL"
    else
      let produced ← record.require "produced"
      if produced.isTruthy then
        let names ← (← produced.requireItems).mapM Json.requireText
        pure (", ".intercalate names)
      else pure "(nothing new)"
  let step ← record.require "step"
  let node ← record.require "node"
  return "  Step " ++ step.shownBare ++ ": Expanded " ++ node.shownBare ++ " -> " ++ produced

/-- The lines of records, up to one that cannot be shown. -/
def reportEntries : (printed : String) → List HistoryEntry → String × Option Error
  | printed, [] => (printed, none)
  | printed, entry :: rest =>
    match entry.report with
    | .ok text => reportEntries (printed ++ line text) rest
    | .error error => (printed, some error)

/-- What each expansion of a search produced. -/
def Search.reportHistory (search : Search) : String × Option Error :=
  let title := heading "Expansion history:"
  match search.history with
  | .entries entries => reportEntries title entries
  -- what is no list is gone through all the same, and where nothing is in it nothing fails
  | .foreign value _ =>
    match value.requireItems with
    | .ok items => reportEntries title (items.map .foreign)
    | .error error => (title, some error)

/-! ## Plans -/

/-- The lines for an action of a plan, with the state after it where states are shown. -/
def planLines (showStates : Bool) (number : Nat) (a : Action) (s : State) :
    Except Error String := do
  if !a.isPrintable then throw .wrongType
  let step := line ("  " ++ toString number ++ ". " ++ a.text)
  if !showStates then return step
  let entries ← s.entries?
  return step ++ line ("       state: \x7b" ++ ", ".intercalate (entries.map Term.text) ++ "\x7d")

/-- The numbered actions of a plan. -/
def Plan.steps (plan : Plan) (showStates : Bool) : Except Error String := do
  let lines ← (plan.actions.zip (plan.states.drop 1)).zipIdx.mapM fun ((a, s), i) =>
    planLines showStates (i + 1) a s
  return String.join lines

/-- A plan. -/
def Plan.report (plan : Plan) (showStates : Bool) : Except Error String := do
  let steps ← plan.steps showStates
  return heading ("PLAN (" ++ toString plan.actions.length ++ " steps, " ++ plan.nodesExpanded.text
      ++ " nodes expanded)")
    ++ (if plan.actions.isEmpty then line "  (empty: the goal holds in the initial state)" else "")
    ++ steps
    ++ line ruler

/-- Why there is no plan. -/
def reportNoPlan (reason : String) : String :=
  line ("No plan found: " ++ reason ++ ".")

/-- The answer of a planner. -/
def PlanResult.report (showStates : Bool) : PlanResult → Except Error String
  | .found plan => plan.report showStates
  | .notFound reason _ _ => .ok (reportNoPlan reason.text)

/-- A plan that may not be there. -/
def reportPlan? (showStates : Bool) : Option Plan → Except Error String
  | some plan => plan.report showStates
  | none => .ok (reportNoPlan "no search result")

end HornPlan
