import HornPlan.Action
import HornPlan.Search.Count

/-!
# Searches

A search keeps the nodes that it has generated and not yet expanded, every state it has generated
with the smallest depth at which it did, and a record of every expansion.  A node is a state
together with the actions that lead to it; two nodes may share a state.

A search that was read from a file may hold what no search writes: records that no expansion made, a
halt flag that is no truth value, a history that is no list.  It is all kept as it is.
-/

namespace HornPlan

/-- A state, the actions that lead to it, and the step of the search that generated it. -/
structure Node where
  state : State
  actions : List Action
  step : Count

namespace Node

/-- The number of actions. -/
def depth (n : Node) : Nat :=
  n.actions.length

/-- The actions in words. -/
def name (n : Node) : String :=
  if n.actions.isEmpty then "[initial]"
  else " -> ".intercalate (n.actions.map fun a => a.text)

/-- The actions in words, where all of them can be printed. -/
def name? (n : Node) : Except Error String :=
  if n.actions.all fun a => a.isPrintable then .ok n.name else .error .wrongType

end Node

/-! ## Halting -/

/-- Whether a search has halted: a truth value, or what a file has in its place. -/
inductive HaltFlag
  | plain (halted : Bool)
  | foreign (value : Json) (notBool : value.bool? = none)

namespace HaltFlag

/-- A flag as a JSON document. -/
def toData : HaltFlag → Json
  | plain halted => .bool halted
  | foreign value _ => value

/-- Reads a flag. -/
def ofData (value : Json) : HaltFlag :=
  match h : value.bool? with
  | some halted => plain halted
  | none => foreign value h

/-- A flag counts as set when its value counts as true. -/
def isSet (flag : HaltFlag) : Bool :=
  flag.toData.isTruthy

end HaltFlag

/-- The causes that halt a search. -/
inductive HaltCause
  | goalReached
  | frontierEmpty
  | goalUnreachable
  | stopConditionMet
  | timeLimitExceeded
  deriving DecidableEq

namespace HaltCause

/-- All of them. -/
def all : List HaltCause :=
  [goalReached, frontierEmpty, goalUnreachable, stopConditionMet, timeLimitExceeded]

/-- The wording of a cause. -/
def text : HaltCause → String
  | goalReached => "goal reached"
  | frontierEmpty => "frontier empty"
  | goalUnreachable => "goal unreachable"
  | stopConditionMet => "stop condition met"
  | timeLimitExceeded => "time limit exceeded"

/-- The cause of a wording. -/
def ofData? (value : Json) : Option HaltCause :=
  all.find? fun cause => value.text? = some cause.text

theorem ofData?_text (cause : HaltCause) : ofData? (.str cause.text) = some cause := by
  cases cause <;> decide

end HaltCause

/-- Why a search halted: one of the causes, or what a file has in the place of one.  A search that
runs has the empty text. -/
inductive HaltReason
  | cause (known : HaltCause)
  | foreign (value : Json) (noCause : HaltCause.ofData? value = none)

namespace HaltReason

/-- No reason. -/
def unknown : HaltReason :=
  foreign (.str "") (by decide)

/-- A reason as a JSON document. -/
def toData : HaltReason → Json
  | .cause known => .str known.text
  | foreign value _ => value

/-- Reads a reason. -/
def ofData (value : Json) : HaltReason :=
  match h : HaltCause.ofData? value with
  | some known => .cause known
  | none => foreign value h

/-- The text of a reason. -/
def text (reason : HaltReason) : String :=
  reason.toData.shownBare

end HaltReason

/-! ## History -/

/-- What one step of a search did. -/
structure Expansion where
  step : Count
  node : String
  depth : Nat
  produced : List String
  goal : Bool
  frontierSize : Nat

/-- An entry of the history: an expansion, or a record from elsewhere. -/
inductive HistoryEntry
  | expansion (e : Expansion)
  | foreign (record : Json)

/-- The entries of a history, or what a file has in the place of the list. -/
inductive History
  | entries (items : List HistoryEntry)
  | foreign (value : Json) (noList : value.items? = none)

/-- The number of entries, of fields or of characters. -/
def History.size : History → Except Error Nat
  | entries items => .ok items.length
  | foreign value _ => value.requireItems.map List.length

/-- Adds an entry.  Only to a list something can be added, and what is no list counts before what is
wrong with the entry. -/
def History.add (entry : Except Error HistoryEntry) : History → Except Error History
  | entries earlier => entry.map fun entry => entries (earlier ++ [entry])
  | foreign _ _ => .error .unsupported

/-! ## Searches -/

/-- A search.  `seen` lists states in the order in which they were first generated. -/
structure Search where
  initialState : State
  frontier : List Node
  seen : List (State × Count)
  history : History
  step : Count
  haltFlag : HaltFlag
  haltReason : HaltReason
  solution : Option Node

namespace Search

/-- A search that holds nothing. -/
def empty : Search :=
  ⟨.empty, [], [], .entries [], 0, .plain false, .unknown, none⟩

/-- The search that has generated its initial state. -/
def start (s : State) : Search :=
  { empty with initialState := s, frontier := [⟨s, [], 0⟩], seen := [(s, 0)] }

/-- Adds a node without actions to the frontier. -/
def push (search : Search) (s : State) : Search :=
  { search with frontier := search.frontier ++ [⟨s, [], 0⟩] }

/-- A goal node has been reached. -/
def found (search : Search) : Bool :=
  search.solution.isSome

/-- The search has halted. -/
def halted (search : Search) : Bool :=
  search.haltFlag.isSet

/-- Stops a search. -/
def halt (search : Search) (cause : HaltCause) : Search :=
  { search with haltFlag := .plain true, haltReason := .cause cause }

/-- Adds an entry to the history; a search whose history takes none is left as it is. -/
def record (search : Search) (entry : Except Error HistoryEntry) : Search × Option Error :=
  match search.history.add entry with
  | .ok history => ({ search with history := history }, none)
  | .error error => (search, some error)

/-- Notes the depth of a state: one that is there keeps its place and its form. -/
def recordDepth (seen : List (State × Count)) (s : State) (depth : Count) : List (State × Count) :=
  if seen.any (·.1 == s) then
    seen.map fun entry => if entry.1 == s then (entry.1, depth) else entry
  else seen ++ [(s, depth)]

/-- A state was generated at this depth or a smaller one. -/
def seenBy (seen : List (State × Count)) (s : State) (depth : Int) : Except Error Bool :=
  match seen.lookup s with
  | some earlier => earlier.atMost (.whole depth)
  | none => .ok false

end Search

end HornPlan
