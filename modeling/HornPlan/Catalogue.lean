import HornPlan.Search.Strategy
import HornPlan.Worlds.Blocks
import HornPlan.Worlds.Cake
import HornPlan.Worlds.Freight
import HornPlan.Worlds.Garage
import HornPlan.Worlds.Roads

/-!
# The catalogue of problems

Every entry has a name, a problem, the depth bound and the strategy that suit it, and says whether
it is solved by searching or by asking a language model.
-/

namespace HornPlan

/-- An entry of the catalogue. -/
structure CatalogueEntry where
  name : String
  problem : Except Error Problem
  bound : Count
  strategy : StrategyName
  asksModel : Bool

/-- The problems that come with the planner. -/
def catalogue : List CatalogueEntry :=
  [⟨"romania", Worlds.romania, 1, .breadthFirst, false⟩,
   ⟨"romania_roads", Worlds.romaniaRoads "Sibiu" "Bucharest", 5, .breadthFirst, false⟩,
   ⟨"air_cargo", Worlds.airCargo, 6, .breadthFirst, false⟩,
   ⟨"spare_tire", Worlds.spareTire, 4, .breadthFirst, false⟩,
   ⟨"three_block_tower", Worlds.threeBlockTower, 4, .astar, false⟩,
   ⟨"have_cake", Worlds.haveCake, 3, .breadthFirst, false⟩,
   ⟨"llm", Worlds.romaniaRoads "Sibiu" "Bucharest", 5, .breadthFirst, true⟩]

/-- The entry of a name. -/
def CatalogueEntry.ofName? (name : String) : Option CatalogueEntry :=
  catalogue.find? fun entry => entry.name = name

end HornPlan
