import HornPlan.Worlds.Stating

/-!
# Air freight

Two planes and two pieces of cargo stand at two airports, one of each at either.  Each piece of
cargo has to go to the other airport.  What kind of thing an object is, is a fact of the state, so
the required facts bind every parameter.
-/

namespace HornPlan.Worlds

/-- The kinds of the objects that are loaded and unloaded. -/
def cargoPlaneAirport : List Row :=
  [("Cargo", ["c"]), ("Plane", ["p"]), ("Airport", ["a"])]

/-- Swapping two pieces of cargo. -/
def airCargo : Except Error Problem := do
  let load ← action "Load" ["c", "p", "a"]
    ([("At", ["c", "a"]), ("At", ["p", "a"])] ++ cargoPlaneAirport) []
    [("In", ["c", "p"])] [("At", ["c", "a"])] []
  let unload ← action "Unload" ["c", "p", "a"]
    ([("In", ["c", "p"]), ("At", ["p", "a"])] ++ cargoPlaneAirport) []
    [("At", ["c", "a"])] [("In", ["c", "p"])] []
  let fly ← action "Fly" ["p", "f", "to"]
    [("At", ["p", "f"]), ("Plane", ["p"]), ("Airport", ["f"]), ("Airport", ["to"])] []
    [("At", ["p", "to"])] [("At", ["p", "f"])] []
  let init ← facts [("At", ["C1", "SFO"]), ("At", ["C2", "JFK"]), ("At", ["P1", "SFO"]),
    ("At", ["P2", "JFK"]), ("Cargo", ["C1"]), ("Cargo", ["C2"]), ("Plane", ["P1"]),
    ("Plane", ["P2"]), ("Airport", ["SFO"]), ("Airport", ["JFK"])]
  Problem.make? (.str "air_cargo") init [.inl load, .inl unload, .inl fly]
    (← goal [("At", ["C1", "JFK"]), ("At", ["C2", "SFO"])])

end HornPlan.Worlds
