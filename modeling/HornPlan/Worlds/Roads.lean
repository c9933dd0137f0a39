import HornPlan.Worlds.Stating

/-!
# Travelling in Romania

Seven roads join six cities.  In one problem each road is stated once, two rules make connections
symmetric and transitive, and there is a flight from Sibiu to Bucharest.  In the other each road is
stated in both directions and there is nothing but driving.

A car follows stated roads only: the rules widen what the knowledge base answers, and not where a
car can go.
-/

namespace HornPlan.Worlds

/-- The roads, each with its two ends. -/
def roads : List (String × String) :=
  [("Bucharest", "Pitesti"), ("Pitesti", "Rimnicu"), ("Rimnicu", "Sibiu"), ("Sibiu", "Fagaras"),
   ("Fagaras", "Bucharest"), ("Pitesti", "Craiova"), ("Craiova", "Rimnicu")]

/-- A road from one city to another. -/
def connected (origin destination : String) : Row :=
  ("Connected", [origin, destination])

/-- Where the traveller is. -/
def located (place : String) : Row :=
  ("At", [place])

/-- Driving along a road. -/
def drive : Except Error Action :=
  action "Drive" ["x", "y"] [located "x", connected "x" "y"] [] [located "y"] [located "x"] []

/-- Flying from one city to another. -/
def fly (origin destination : String) : Except Error Action :=
  action "Fly" [origin, destination] [located origin] [] [located destination] [located origin] []

/-- The problem with rules and a flight. -/
def romania : Except Error Problem := do
  let there ← facts (roads.map fun road => connected road.1 road.2)
  let symmetry ← rule [connected "x" "y"] (connected "y" "x")
  let transitivity ← rule [connected "x" "y", connected "y" "z"] (connected "x" "z")
  let traveller ← facts [located "Sibiu"]
  let fly ← fly "Sibiu" "Bucharest"
  let drive ← drive
  Problem.make? (.str "romania") (there ++ [symmetry, transitivity] ++ traveller)
    [.inl fly, .inl drive]
    (← goal [located "Bucharest"])

/-- The problem of driving from one city to another. -/
def romaniaRoads (origin destination : String) : Except Error Problem := do
  let there ← facts (roads.map fun road => connected road.1 road.2)
  let back ← facts (roads.map fun road => connected road.2 road.1)
  let traveller ← facts [located origin]
  let drive ← drive
  Problem.make? (.str "romania_roads") (there ++ back ++ traveller) [.inl drive]
    (← goal [located destination])

end HornPlan.Worlds
