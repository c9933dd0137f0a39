import HornPlan.Worlds.Stating

/-!
# A tower of three blocks

Block C stands on A, and the tower to build is A on B on C.  A block is not moved onto itself: that
two blocks differ is asked of the knowledge base, where it is stated once for every pair and made
symmetric by a rule.
-/

namespace HornPlan.Worlds

/-- Two blocks are not the same. -/
def different (a b : String) : Row :=
  ("Different", [a, b])

/-- Building the tower. -/
def threeBlockTower : Except Error Problem := do
  let move ← action "Move" ["b", "x", "y"]
    [("On", ["b", "x"]), ("Clear", ["b"]), ("Clear", ["y"]), ("Block", ["b"]), ("Block", ["y"])] []
    [("On", ["b", "y"]), ("Clear", ["x"])] [("On", ["b", "x"]), ("Clear", ["y"])]
    [different "b" "y"]
  let moveToTable ← action "MoveToTable" ["b", "x"]
    [("On", ["b", "x"]), ("Clear", ["b"]), ("Block", ["b"]), ("Block", ["x"])] []
    [("On", ["b", "Table"]), ("Clear", ["x"])] [("On", ["b", "x"])] []
  let init ← facts [("On", ["A", "Table"]), ("On", ["B", "Table"]), ("On", ["C", "A"]),
    ("Block", ["A"]), ("Block", ["B"]), ("Block", ["C"]), ("Clear", ["B"]), ("Clear", ["C"]),
    different "A" "B", different "A" "C", different "B" "C"]
  let symmetry ← rule [different "x" "y"] (different "y" "x")
  Problem.make? (.str "three_block_tower") (init ++ [symmetry]) [.inl move, .inl moveToTable]
    (← goal [("On", ["A", "B"]), ("On", ["B", "C"])])

end HornPlan.Worlds
