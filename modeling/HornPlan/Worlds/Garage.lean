import HornPlan.Worlds.Stating

/-!
# The spare tire

The flat tire comes off the axle and the spare goes on.  Nothing is put on while the flat is still
there.  Leaving the car overnight has no conditions and strips every tire from every place.
-/

namespace HornPlan.Worlds

/-- Every tire at every place. -/
def tiresAtPlaces : List Row :=
  ["Flat", "Spare"].flatMap fun tire =>
    ["Axle", "Trunk", "Ground"].map fun place => ("At", [tire, place])

/-- Changing a tire. -/
def spareTire : Except Error Problem := do
  let remove ← action "Remove" ["obj", "loc"] [("At", ["obj", "loc"])] []
    [("At", ["obj", "Ground"])] [("At", ["obj", "loc"])] []
  let putOn ← action "PutOn" ["t", "Axle"] [("Tire", ["t"]), ("At", ["t", "Ground"])]
    [("At", ["Flat", "Axle"])] [("At", ["t", "Axle"])] [("At", ["t", "Ground"])] []
  let leaveOvernight ← action "LeaveOvernight" [] [] [] [] tiresAtPlaces []
  let init ← facts [("Tire", ["Flat"]), ("Tire", ["Spare"]), ("At", ["Flat", "Axle"]),
    ("At", ["Spare", "Trunk"])]
  Problem.make? (.str "spare_tire") init [.inl remove, .inl putOn, .inl leaveOvernight]
    (← goal [("At", ["Spare", "Axle"]), ("At", ["Flat", "Ground"])])

end HornPlan.Worlds
