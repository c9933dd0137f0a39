import HornPlan.Search.Basic

/-!
# Search trees

The tree of a search has a node for every sequence of actions that starts the path of a frontier
node or of the solution.  The empty sequence is the root, and the parent of any other sequence is
the one without its last action.  The tree is written in the DOT language.

Equal sequences are one node.  It has the label of the last of them, as far as equal actions differ
in their texts.
-/

namespace HornPlan.Search

/-- The starts of a path that are not empty, from the shortest on. -/
def starts (path : List Action) : List (List Action) :=
  (List.range path.length).map fun i => path.take (i + 1)

/-- The paths to the known nodes. -/
def paths (search : Search) : List (List Action) :=
  (search.frontier ++ search.solution.toList).map (·.actions)

/-- The sequences that make the nodes of the tree, with repetitions. -/
def treePaths (search : Search) : List (List Action) :=
  search.paths.flatMap starts

/-- The nodes of the tree, the root first. -/
def treeNodes (search : Search) : List (List Action) :=
  ([] :: search.treePaths).eraseDups

/-- What a node of the tree is called: its place among the nodes. -/
def nodeId (nodes : List (List Action)) (path : List Action) : String :=
  "n" ++ toString (nodes.idxOf path)

/-- The label of a node of the tree: the last action of the last sequence that makes it. -/
def nodeLabel (search : Search) (path : List Action) : String :=
  match ((search.treePaths.reverse.find? (· == path)).getD []).getLast? with
  | none => "[initial]"
  | some a => a.text

/-- A label between the quotes of the DOT language: a quote inside is set off by a backslash. -/
def escapeLabel (label : String) : String :=
  String.ofList (label.toList.flatMap fun c => if c = '"' then ['\\', '"'] else [c])

/-- The colour of a node: on the path to the solution, on the frontier, or neither. -/
def nodeColour (search : Search) (path : List Action) : String :=
  if search.solution.any fun n => path.isPrefixOf n.actions then "palegreen"
  else if search.frontier.any fun n => n.actions == path then "lightblue"
  else "lightgray"

/-- The lines for a node of the tree: the node, and the edge from its parent. -/
def nodeLines (search : Search) (nodes : List (List Action)) (path : List Action) : String :=
  let name := nodeId nodes path
  let node := "  " ++ name ++ " [label=\"" ++ escapeLabel (search.nodeLabel path)
    ++ "\", fillcolor=" ++ search.nodeColour path ++ ", style=filled];\n"
  if path.isEmpty then node
  else node ++ "  " ++ nodeId nodes path.dropLast ++ " -> " ++ name ++ ";\n"

/-- The tree in the DOT language.  Every action has to be printed and looked up. -/
def dot (search : Search) : Except Error String :=
  if search.paths.all fun path => path.all fun a => a.isPrintable && a.isIndexable then
    let nodes := search.treeNodes
    .ok ("digraph search \x7b\n  rankdir=TB;\n  node [shape=box, style=rounded];\n"
      ++ String.join (nodes.map (search.nodeLines nodes)) ++ "\x7d\n")
  else .error .wrongType

end HornPlan.Search
