import HornPlan.Worlds.Stating

/-!
# Having cake and eating it too

A cake can only be baked when there is none: a forbidden fact.
-/

namespace HornPlan.Worlds

/-- Having eaten the cake and still having one. -/
def haveCake : Except Error Problem := do
  let eat ← action "Eat" ["Cake"] [("Have", ["Cake"])] [] [("Eaten", ["Cake"])]
    [("Have", ["Cake"])] []
  let bake ← action "Bake" ["Cake"] [] [("Have", ["Cake"])] [("Have", ["Cake"])] [] []
  Problem.make? (.str "have_cake") (← facts [("Have", ["Cake"])]) [.inl eat, .inl bake]
    (← goal [("Have", ["Cake"]), ("Eaten", ["Cake"])])

end HornPlan.Worlds
