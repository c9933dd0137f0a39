import HornPlan.RelaxedGraph
import HornPlan.Search.Step
import HornPlan.Text.Numeral
import Std.Data.TreeMap

/-!
# Strategies

Breadth first takes the oldest node and finds a plan of least length.  Depth first takes the newest.
A* takes the first node with the least sum of its depth and its estimated distance to the goal, and
discards new nodes from which the goal cannot be reached.  Interactive search asks a person.

A strategy that is none of these names a place in the frontier, counted round.
-/

namespace HornPlan

/-- A policy and the memory it starts with. -/
structure Strategy where
  Memory : Type
  memory : Memory
  policy : Policy Memory

/-! ## Policies without memory -/

/-- Discards nothing. -/
def keepAll {M : Type} (memory : M) (_ : Node) (_ : Search) : Reply M Bool :=
  ⟨memory, "", .ok false⟩

/-- The policy that takes the node at a place which depends on the frontier alone. -/
def Policy.at (place : List Node → Nat) : Policy Unit where
  choose memory frontier := ⟨memory, "", .ok (place frontier)⟩
  prune := keepAll

/-- Takes the oldest node. -/
def Policy.oldest : Policy Unit :=
  .at fun _ => 0

/-- Takes the newest node. -/
def Policy.newest : Policy Unit :=
  .at fun frontier => frontier.length - 1

/-- Takes the node at a place counted round the frontier, from its end when negative. -/
def Policy.round (index : Int) : Policy Unit :=
  .at fun frontier => (index.emod frontier.length).toNat

/-- The policy that fails to choose. -/
def Policy.failing (error : Error) : Policy Unit where
  choose memory _ := ⟨memory, "", .error error⟩
  prune := keepAll

/-- A policy that discards the nodes whose state holds a term, and no others. -/
def Policy.avoiding {M : Type} (policy : Policy M) (t : Term) : Policy M :=
  { policy with prune := fun memory node _ => ⟨memory, "", node.state.lookUp t⟩ }

/-! ## A* -/

/-- The estimates that have been computed, in lists by the fingerprints of their states. -/
abbrev Estimates := Std.TreeMap Nat (List (State × Option Nat))

namespace Estimates

/-- The estimates of the states that share a fingerprint. -/
def sharing (known : Estimates) (fingerprint : Nat) : List (State × Option Nat) :=
  known.getD fingerprint []

/-- Remembers the estimate of a state. -/
def remember (known : Estimates) (s : State) (estimate : Option Nat) : Estimates :=
  known.insert s.fingerprint ((s, estimate) :: known.sharing s.fingerprint)

/-- The estimate of a state, from memory where it is there. -/
def get (p : Problem) (known : Estimates) (s : State) : Except Error (Option Nat) × Estimates :=
  match (known.sharing s.fingerprint).lookup s with
  | some estimate => (.ok estimate, known)
  | none =>
    match p.estimate s with
    | .ok estimate => (.ok estimate, known.remember s estimate)
    | .error error => (.error error, known)

end Estimates

/-- The place of the first node with the least sum of depth and estimate.  `place` numbers the next
node and `best` is the best place so far with its sum.  A node without an estimate has no sum. -/
def leastCost (p : Problem) : (place : Nat) → (best : Option (Nat × Nat)) → Estimates → List Node →
    Reply Estimates Nat
  | _, best, known, [] => ⟨known, "", .ok ((best.map Prod.fst).getD 0)⟩
  | place, best, known, node :: rest =>
    match Estimates.get p known node.state with
    | (.error error, known) => ⟨known, "", .error error⟩
    -- only a search that was begun with another strategy leaves such a node
    | (.ok none, known) => ⟨known, "", .error .unreachableNode⟩
    | (.ok (some estimate), known) =>
      let cost := node.depth + estimate
      let best :=
        match best with
        | some (earlier, least) =>
            if cost < least then some (place, cost) else some (earlier, least)
        | none => some (place, cost)
      leastCost p (place + 1) best known rest

/-- Takes the first node of least cost, and discards nodes without an estimate. -/
def Policy.leastCost (p : Problem) : Policy Estimates where
  choose known frontier := HornPlan.leastCost p 0 none known frontier
  prune known node _ :=
    match Estimates.get p known node.state with
    | (answer, known) => ⟨known, "", answer.map (·.isNone)⟩

/-! ## Asking a person -/

/-- The line of a menu for a node. -/
def menuLine (node : Node) (place : Nat) : Except Error String := do
  return "  [" ++ toString place ++ "] (depth " ++ toString node.depth ++ ") " ++
    (← node.name?) ++ "\n"

/-- The nodes to choose from, up to one that cannot be printed. -/
def menu : (place : Nat) → (printed : String) → List Node → String × Option Error
  | _, printed, [] => (printed, none)
  | place, printed, node :: rest =>
    match menuLine node place with
    | .ok line => menu (place + 1) (printed ++ line) rest
    | .error error => (printed, some error)

/-- The words that end an interactive search, in any case. -/
def quitWords : List (List Char) :=
  ["q".toList, "quit".toList, "exit".toList]

/-- The place that a number names among `size` places; a negative one counts from the end. -/
def placeOf? (size : Nat) (number : Int) : Option Nat :=
  if 0 ≤ number then if number < size then some number.toNat else none
  else if 0 ≤ size + number then some (size + number).toNat
  else none

/-- Asks for a place until a line of the input names one.  The lines not read are the memory. -/
def readChoice (size : Nat) : (printed : String) → List String → Reply (List String) Nat
  | printed, [] => ⟨[], printed ++ "> ", .error .inputExhausted⟩
  | printed, line :: rest =>
    let printed := printed ++ "> "
    let reply := Text.trim line.toList
    if quitWords.contains (reply.map Char.toLower) then ⟨rest, printed, .error .interrupted⟩
    else
      match (Text.integer? (String.ofList reply)).bind (placeOf? size) with
      | some place => ⟨rest, printed, .ok place⟩
      | none => readChoice size (printed ++ "Enter a number, or 'q' to quit.\n") rest

/-- Lets a person choose. -/
def Policy.ask : Policy (List String) where
  choose lines frontier :=
    match menu 0 "\nWhich node would you like to expand?\n" frontier with
    | (printed, none) => readChoice frontier.length printed lines
    | (printed, some error) => ⟨lines, printed, .error error⟩
  prune := keepAll

/-! ## Names -/

/-- The strategies that have a name. -/
inductive StrategyName
  | breadthFirst
  | depthFirst
  | astar
  | interactive
  deriving DecidableEq

namespace StrategyName

/-- All of them. -/
def all : List StrategyName :=
  [breadthFirst, depthFirst, astar, interactive]

/-- The name of a strategy. -/
def text : StrategyName → String
  | breadthFirst => "breadth_first"
  | depthFirst => "depth_first"
  | astar => "astar"
  | interactive => "interactive"

/-- The strategy of a name.  A list or an object is no name to look for. -/
def ofData? (name : Json) : Except Error StrategyName :=
  match name with
  | .arr _ => .error .wrongType
  | .obj _ => .error .wrongType
  | _ =>
    match all.find? fun strategy => name.text? = some strategy.text with
    | some strategy => .ok strategy
    | none => .error (.unknownStrategy name (sortedNames (all.map StrategyName.text)))

/-- The strategy of a name, for a problem and the lines that a person will type. -/
def strategy (p : Problem) (lines : List String) : StrategyName → Strategy
  | breadthFirst => ⟨Unit, (), .oldest⟩
  | depthFirst => ⟨Unit, (), .newest⟩
  | astar => ⟨Estimates, ∅, .leastCost p⟩
  | interactive => ⟨List String, lines, .ask⟩

end StrategyName

end HornPlan
