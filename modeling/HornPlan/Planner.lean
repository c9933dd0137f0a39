import HornPlan.Search.Run
import HornPlan.Search.Strategy

/-!
# Planning

`plan` searches for at most `bound` ground actions that lead from the initial state to the goal.  It
answers with a plan, or with the reason why there is none.  Before the first step it asks the
relaxed graph whether the goal can be reached at all.

A plan is the actions of the node that reached the goal, executed again from the initial state of
the search.
-/

namespace HornPlan

/-- Actions and the states they lead through, from the initial one on. -/
structure Plan where
  actions : List Action
  states : List State
  nodesExpanded : Count

namespace Plan

/-- All actions of a plan can be printed. -/
def isPrintable (plan : Plan) : Bool :=
  plan.actions.all fun a => a.isPrintable

/-- The text of a plan. -/
def text (plan : Plan) : String :=
  "[" ++ ", ".intercalate (plan.actions.map fun a => a.text) ++ "]"

/-- The state a plan ends in. -/
def finalState (plan : Plan) : State :=
  plan.states.getLast?.getD .empty

end Plan

/-- Why there is no plan. -/
inductive NoPlanReason
  | withinBound (bound : Count)
  | nodeLimit (limit : Count)
  | halted (reason : HaltReason)
  | noClient
  | unreadable (error : Error)
  | rejected (report : String)

/-- The wording of a reason. -/
def NoPlanReason.text : NoPlanReason → String
  | withinBound bound => "no plan found within bound " ++ bound.text
  | nodeLimit limit => "node limit " ++ limit.text ++ " exceeded"
  | halted reason => reason.text
  | noClient => "anthropic is not installed"
  | unreadable error => "unreadable reply: " ++ error.message
  | rejected report => "proposed plan rejected: " ++ report

/-- A reason as a JSON document: its wording, or what a file has in the place of one. -/
def NoPlanReason.toData : NoPlanReason → Json
  | halted reason => reason.toData
  | reason => .str reason.text

/-- The answer of a planner. -/
inductive PlanResult
  | found (plan : Plan)
  | notFound (reason : NoPlanReason) (nodesExpanded : Count) (bound : Option Count)

/-- The text of an answer. -/
def PlanResult.text : PlanResult → String
  | .found plan => plan.text
  | .notFound reason _ _ => "PlanNotFound(" ++ reason.text ++ ")"

/-! ## Results of a search -/

/-- The states that actions lead through after a state. -/
def statesAfter : State → List Action → Except Error (List State)
  | _, [] => .ok []
  | s, a :: rest => do
    let next ← a.apply s
    return next :: (← statesAfter next rest)

/-- The plan that executes actions from a state. -/
def planFrom (s : State) (actions : List Action) (nodesExpanded : Count) : Except Error Plan := do
  return ⟨actions, s :: (← statesAfter s actions), nodesExpanded⟩

/-- The plan of the solution of a search. -/
def Search.extract (search : Search) : Except Error (Option Plan) :=
  match search.solution with
  | none => .ok none
  | some node => (planFrom search.initialState node.actions search.step).map some

/-- Why a search without a solution ended. -/
def Search.failure (search : Search) (bound maxNodes : Count) : NoPlanReason :=
  match search.haltReason with
  | .cause .frontierEmpty => .withinBound bound
  | .cause .timeLimitExceeded => .halted (.cause .timeLimitExceeded)
  | reason => if search.halted then .halted reason else .nodeLimit maxNodes

/-- The plan of a search, or why there is none. -/
def Search.result (search : Search) (bound maxNodes : Count) : Except Error PlanResult := do
  match ← search.extract with
  | some plan => return .found plan
  | none => return .notFound (search.failure bound maxNodes) search.step (some bound)

/-! ## Planning -/

/-- What the planner is asked to keep to, with the answers of the clock. -/
structure TimedRequest where
  bound : Count
  maxNodes : Count
  late : (reading : Nat) → Except Error Bool
  verbose : Bool

/-- What the planner is asked to keep to, where the clock has one answer. -/
structure Request where
  bound : Count
  maxNodes : Count
  outOfTime : Except Error Bool
  verbose : Bool

/-- The request with that answer to every reading. -/
def Request.timed (request : Request) : TimedRequest :=
  ⟨request.bound, request.maxNodes, fun _ => request.outOfTime, request.verbose⟩

/-- The limits of a run for a request. -/
def TimedRequest.limits (request : TimedRequest) : TimedLimits :=
  ⟨request.maxNodes, request.late, fun _ => .ok false⟩

/-- Refuses a bound below zero. -/
def Count.requireBound (bound : Count) : Except Error Unit := do
  if ← bound.below 0 then throw (.negativeBound bound.toData)

/-- The answer of the planner, the search it leaves behind, what it printed, and the last checkpoint
of the run. -/
structure Planning where
  answer : Except Error PlanResult
  search : Search
  printed : String
  checkpoint : Option Search

/-- Whether the relaxed graph rules the goal out: then the number of its layers is returned.  Only a
search that has taken no step and does not start at the goal is looked at. -/
def Problem.unreachable? (p : Problem) (search : Search) : Except Error (Option Nat) :=
  match p.goals? with
  | none => .ok none
  | some goals =>
    if !search.step.isZero then .ok none
    else do
      if ← p.reaches search.initialState then return none
      match RelaxedGraph.goalLevel p goals (← RelaxedGraph.start? p search.initialState) with
      | (.error error, _) => throw error
      | (.ok (some _), _) => return none
      | (.ok none, g) => return some g.size

/-- Plans by continuing a search, with a clock at hand. -/
def Problem.planTimed (p : Problem) (request : TimedRequest) (strategy : Strategy)
    (search : Search) :
    Planning :=
  match request.bound.requireBound >>= fun _ => p.unreachable? search with
  | .error error => ⟨.error error, search, "", none⟩
  -- the search is marked as halted, and no step is taken
  | .ok (some layers) =>
    ⟨.ok (.notFound (.halted (.cause .goalUnreachable)) 0 (some request.bound)),
      search.halt .goalUnreachable,
      printLine request.verbose "" ("  [unreachable] relaxed graph leveled off after "
        ++ toString layers ++ " layers"), none⟩
  | .ok none =>
    let run := search.runTimed p strategy.policy (some request.bound) request.verbose request.limits
      strategy.memory
    match run.error with
    | some error => ⟨.error error, run.search, run.printed, run.checkpoint⟩
    | none =>
      ⟨run.search.result request.bound request.maxNodes, run.search, run.printed, run.checkpoint⟩

/-- Plans by continuing a search. -/
def Problem.planWith (p : Problem) (request : Request) (strategy : Strategy) (search : Search) :
    Planning :=
  p.planTimed request.timed strategy search

/-- Plans with a strategy given by name; a negative bound counts before an unknown name. -/
def Problem.planNamed (p : Problem) (request : Request) (name : Json) (lines : List String)
    (search : Search) : Planning :=
  match request.bound.requireBound >>= fun _ => StrategyName.ofData? name with
  | .ok strategy => p.planWith request (strategy.strategy p lines) search
  | .error error => ⟨.error error, search, "", none⟩

/-- Plans from the initial state of a problem. -/
def Problem.plan (p : Problem) (request : Request) (strategy : Strategy) : Planning :=
  p.planWith request strategy (.start p.initialState)

end HornPlan
