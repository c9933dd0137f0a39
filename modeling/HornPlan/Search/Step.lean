import HornPlan.Problem
import HornPlan.Search.Basic

/-!
# Steps of a search

One step takes a node from the frontier and halts if its state reaches the goal.  Otherwise it adds
every successor whose state has not been generated at an equal or a smaller depth.  A node at the
depth bound is tested and not expanded.

Which node is taken, and which new nodes are discarded, is up to a policy.  A policy has a memory,
prints, and may fail; a step that fails leaves behind what it had done until then.
-/

namespace HornPlan

/-- What a policy answers: its new memory, what it printed, and the answer or an error. -/
structure Reply (M α : Type) where
  memory : M
  printed : String
  answer : Except Error α

/-- How nodes are taken from a frontier and new nodes discarded.  `choose` names a node by its place
in the frontier, which is not empty. -/
structure Policy (M : Type) where
  choose : M → List Node → Reply M Nat
  prune : M → Node → Search → Reply M Bool

/-- What a step leaves behind. -/
structure Outcome (M : Type) where
  search : Search
  memory : M
  printed : String
  error : Option Error

/-- Adds a line to what was printed. -/
def printLine (verbose : Bool) (printed line : String) : String :=
  if verbose then printed ++ line ++ "\n" else printed

namespace Search

variable {M : Type}

/-- Adds the nodes of successors one by one, from `parent` at the current step of the search.
`fresh` collects the new nodes; they join the frontier when all successors have been looked at. -/
def addSuccessors (policy : Policy M) (verbose : Bool) (parent : Node) :
    (fresh : List Node) → (search : Search) → (memory : M) → (printed : String) →
      List (Action × State) → Outcome M × List Node
  | fresh, search, memory, printed, [] => (⟨search, memory, printed, none⟩, fresh)
  | fresh, search, memory, printed, (a, s) :: rest =>
    let depth : Int := parent.depth + 1
    match seenBy search.seen s depth with
    | .error error => (⟨search, memory, printed, some error⟩, fresh)
    | .ok true => addSuccessors policy verbose parent fresh search memory printed rest
    | .ok false =>
      -- a state counts as generated even when its node is discarded
      let search := { search with seen := recordDepth search.seen s (.whole depth) }
      let child : Node := ⟨s, parent.actions ++ [a], search.step⟩
      let reply := policy.prune memory child search
      let printed := printed ++ reply.printed
      match reply.answer with
      | .error error => (⟨search, reply.memory, printed, some error⟩, fresh)
      | .ok pruned =>
        if verbose && !a.isPrintable then (⟨search, reply.memory, printed, some .wrongType⟩, fresh)
        else if pruned then
          addSuccessors policy verbose parent fresh search reply.memory
            (printLine verbose printed ("  [pruned] " ++ a.text)) rest
        else
          addSuccessors policy verbose parent (fresh ++ [child]) search reply.memory
            (printLine verbose printed ("  [new] " ++ a.text)) rest

/-- The record of an expansion that produced some nodes. -/
def expansionOf (search : Search) (node : Node) (fresh : List Node) (goal : Bool) :
    Except Error HistoryEntry := do
  let name ← node.name?
  let actions := fresh.filterMap fun n => n.actions.getLast?
  if !actions.all fun a => a.isPrintable then throw .wrongType
  return .expansion
    { step := search.step
      node := name
      depth := node.depth
      produced := actions.map fun a => a.text
      goal := goal
      frontierSize := search.frontier.length }

/-- A node stands at the depth bound or below it. -/
def atBound (bound : Option Count) (node : Node) : Except Error Bool :=
  match bound with
  | none => .ok false
  | some bound => (Count.whole node.depth).atLeast bound

/-- Looks at the successors of a node that is not the goal and has been taken from the frontier. -/
def expandBelow (p : Problem) (policy : Policy M) (bound : Option Count) (verbose : Bool)
    (node : Node) (search : Search) (memory : M) (printed : String) : Outcome M :=
  match atBound bound node with
  | .error error => ⟨search, memory, printed, some error⟩
  | .ok cut =>
    let printed := if cut then
        printLine verbose printed
          ("  [bound] depth " ++ toString node.depth ++ " reached, not expanded")
      else printed
    -- all successors are computed before the first one is looked at
    match if cut then .ok [] else p.successors node.state with
    | .error error => ⟨search, memory, printed, some error⟩
    | .ok successors =>
      match addSuccessors policy verbose node [] search memory printed successors with
      | (⟨search, memory, printed, some error⟩, _) => ⟨search, memory, printed, some error⟩
      | (⟨search, memory, printed, none⟩, fresh) =>
        let search := { search with frontier := search.frontier ++ fresh }
        match search.record (search.expansionOf node fresh false) with
        | (search, some error) => ⟨search, memory, printed, some error⟩
        | (search, none) =>
          ⟨search, memory, printLine verbose printed
            ("  Frontier: " ++ toString search.frontier.length ++ " | Seen: "
              ++ toString search.seen.length), none⟩

/-- Tests a node that has been taken from the frontier, and expands it where it is not the goal. -/
def expandNode (p : Problem) (policy : Policy M) (bound : Option Count) (verbose : Bool)
    (node : Node) (search : Search) (memory : M) (printed : String) : Outcome M :=
  match p.reaches node.state with
  | .error error => ⟨search, memory, printed, some error⟩
  | .ok true =>
    let search := { search.halt .goalReached with solution := some node }
    match search.record (search.expansionOf node [] true) with
    | (search, some error) => ⟨search, memory, printed, some error⟩
    | (search, none) => ⟨search, memory, printLine verbose printed ("  [goal] " ++ node.name), none⟩
  | .ok false => expandBelow p policy bound verbose node search memory printed

/-- What a step says at its start. -/
def header (search : Search) (node : Node) : Except Error String := do
  return "\n--- Step " ++ search.step.text ++ ": Expand [depth " ++ toString node.depth ++ "] "
    ++ (← node.name?) ++ " ---"

/-- One step of a search. -/
def advance (p : Problem) (policy : Policy M) (bound : Option Count) (verbose : Bool)
    (search : Search) (memory : M) : Outcome M :=
  if search.frontier.isEmpty then ⟨search.halt .frontierEmpty, memory, "", none⟩
  else
    let reply := policy.choose memory search.frontier
    match reply.answer with
    | .error error => ⟨search, reply.memory, reply.printed, some error⟩
    | .ok index =>
      match search.frontier[index]? with
      | none => ⟨search, reply.memory, reply.printed, some .outOfRange⟩
      | some node =>
        -- the node is gone from the frontier from here on, whatever fails later
        let search := { search with frontier := search.frontier.eraseIdx index }
        match search.step.next with
        | .error error => ⟨search, reply.memory, reply.printed, some error⟩
        | .ok step =>
          let search := { search with step := step }
          match if verbose then search.header node else .ok "" with
          | .error error => ⟨search, reply.memory, reply.printed, some error⟩
          | .ok header =>
            expandNode p policy bound verbose node search reply.memory
              (printLine verbose reply.printed header)

end Search

end HornPlan
