import HornPlan.Problem

/-!
# Stating problems

Short forms for the parts of a problem: an atom is a predicate with the names of its arguments, and
a parameter of an action is a name.
-/

namespace HornPlan.Worlds

/-- A predicate and the names of its arguments. -/
abbrev Row := String × List String

/-- The atom of a row. -/
def atom (row : Row) : Except Error Atom :=
  Atom.ofNames? row.1 row.2

/-- The atoms of rows. -/
def atoms (rows : List Row) : Except Error (List Atom) :=
  rows.mapM atom

/-- Atoms as the parts of an action. -/
def parts (rows : List Row) : Except Error (List Term) := do
  return (← atoms rows).map Atom.toTerm

/-- Names as the parameters of an action. -/
def parameters (names : List String) : List Term :=
  names.map fun name => .foreign (.value (.str name))

/-- An action whose parameters have the given names. -/
def action (name : String) (names : List String) (requires forbids adds deletes static : List Row) :
    Except Error Action := do
  Draft.toAction? ⟨Symbol.ofText? name, parameters names, ← parts requires, ← parts forbids,
    ← parts adds, ← parts deletes, ← parts static, true⟩

/-- Rows as the facts of a problem. -/
def facts (rows : List Row) : Except Error (List Statement) := do
  return (← atoms rows).map fun a => .inl (.ofAtom a)

/-- A rule of a problem. -/
def rule (antecedents : List Row) (consequent : Row) : Except Error Statement := do
  return .inl ⟨← atoms antecedents, ← atom consequent⟩

/-- Rows as the goal of a problem. -/
def goal (rows : List Row) : Except Error Problem.GoalStatement := do
  return .query (.all ((← atoms rows).map Atom.toTerm))

end HornPlan.Worlds
