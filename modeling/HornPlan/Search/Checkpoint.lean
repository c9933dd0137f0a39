import HornPlan.Search.Basic

/-!
# Checkpoints

A search is written as a JSON document and read back.  The halt flag, the halt reason, the solution
and the step of a node may be left out of a document; everything else has to be there.

The facts of a state are written in the order of their texts, as an enumeration meets them.  What is
read back is a state again, and keeps nothing of that order.
-/

namespace HornPlan

/-! ## Writing -/

/-- A node as a JSON document. -/
def Enumeration.nodeData (e : Enumeration) (n : Node) : Except Error Json := do
  return .obj [("state", ← e.stateData n.state), ("actions", .arr (n.actions.map Action.toData)),
    ("step", n.step.toData)]

/-- A state and the depth at which it was generated as a JSON document. -/
def Enumeration.seenData (e : Enumeration) (entry : State × Count) : Except Error Json := do
  return .obj [("state", ← e.stateData entry.1), ("depth", entry.2.toData)]

/-- An expansion as a JSON document. -/
def Expansion.toData (e : Expansion) : Json :=
  .obj [("step", e.step.toData), ("node", .str e.node), ("depth", .int e.depth),
    ("produced", .arr (e.produced.map .str)), ("goal", .bool e.goal),
    ("frontier_size", .int e.frontierSize)]

/-- An entry of the history as a JSON document. -/
def HistoryEntry.toData : HistoryEntry → Json
  | .expansion e => e.toData
  | .foreign record => record

/-- A history as a JSON document. -/
def History.toData : History → Json
  | .entries items => .arr (items.map HistoryEntry.toData)
  | .foreign value _ => value

/-- A search as a JSON document. -/
def Enumeration.searchData (e : Enumeration) (search : Search) : Except Error Json := do
  let initialState ← e.stateData search.initialState
  let frontier ← search.frontier.mapM e.nodeData
  let seen ← search.seen.mapM e.seenData
  let solution ←
    match search.solution with
    | none => pure Json.null
    | some node => e.nodeData node
  return .obj [("initial_state", initialState), ("frontier", .arr frontier), ("seen", .arr seen),
    ("history", search.history.toData), ("step", search.step.toData),
    ("halted", search.haltFlag.toData), ("halt_reason", search.haltReason.toData),
    ("solution", solution)]

/-- `Enumeration.searchData` with the facts in the order of their codes. -/
def Search.toData (search : Search) : Except Error Json :=
  Enumeration.byCode.searchData search

/-! ## Reading -/

/-- Reads a node. -/
def Node.ofData? (document : Json) : Except Error Node := do
  let state ← State.ofData? (← document.require "state")
  let actions ← (← (← document.require "actions").requireItems).mapM Action.ofData?
  return ⟨state, actions, ((document.field? "step").map Count.ofData).getD 0⟩

/-- Reads the record of an expansion, which has to have all its fields and no others. -/
def Expansion.ofData? (document : Json) : Option Expansion :=
  match document with
  | .obj fields =>
    if fields.length ≠ 6 then none
    else do
      let step := Count.ofData (← fields.lookup "step")
      let node ← (← fields.lookup "node").text?
      let depth ← (← fields.lookup "depth").int?
      let produced ← (← (← fields.lookup "produced").items?).mapM Json.text?
      let goal ← (← fields.lookup "goal").bool?
      let frontierSize ← (← fields.lookup "frontier_size").int?
      if depth < 0 ∨ frontierSize < 0 then none
      else some ⟨step, node, depth.toNat, produced, goal, frontierSize.toNat⟩
  | _ => none

/-- Reads an entry of the history. -/
def HistoryEntry.ofData (document : Json) : HistoryEntry :=
  match Expansion.ofData? document with
  | some e => .expansion e
  | none => .foreign document

/-- Reads a history. -/
def History.ofData (document : Json) : History :=
  match h : document.items? with
  | some items => .entries (items.map HistoryEntry.ofData)
  | none => .foreign document h

/-- Reads a search.  Of two depths for one state the later counts. -/
def Search.ofData? (document : Json) : Except Error Search := do
  let initialState ← State.ofData? (← document.require "initial_state")
  let frontier ← (← (← document.require "frontier").requireItems).mapM Node.ofData?
  let seen ← (← (← document.require "seen").requireItems).foldlM (fun seen entry => do
    let state ← State.ofData? (← entry.require "state")
    return Search.recordDepth seen state (.ofData (← entry.require "depth"))) []
  let history ← document.require "history"
  let step ← document.require "step"
  let flag := ((document.field? "halted").map HaltFlag.ofData).getD (.plain false)
  let reason := ((document.field? "halt_reason").map HaltReason.ofData).getD .unknown
  let solution ←
    match document.field? "solution" with
    | none | some .null => pure none
    | some node => (Node.ofData? node).map some
  return ⟨initialState, frontier, seen, .ofData history, .ofData step, flag, reason, solution⟩

end HornPlan
