import HornPlan.Term

/-!
# Horn clauses

A clause states that its consequent holds whenever all its antecedents do.  A clause without
antecedents is a fact, every other one a rule.

A clause is safe when applying it to known facts never makes up a term: every variable of the
consequent occurs in an antecedent, and an argument of the consequent that is a compound term is
ground.  Forward chaining relies on this to come to an end.
-/

namespace HornPlan

/-- `antecedents` together imply `consequent`. -/
structure Clause where
  antecedents : List Atom
  consequent : Atom

instance : BEq Clause :=
  ⟨fun c d => c.antecedents == d.antecedents && c.consequent == d.consequent⟩

namespace Clause

/-- The clause that asserts an atom. -/
def ofAtom (a : Atom) : Clause :=
  ⟨[], a⟩

/-- A clause without antecedents. -/
def isFact (c : Clause) : Bool :=
  c.antecedents.isEmpty

/-- A clause with antecedents. -/
def isRule (c : Clause) : Bool :=
  !c.isFact

/-- The atoms that the facts among clauses assert. -/
def factsOf (clauses : List Clause) : List Atom :=
  (clauses.filter (·.isFact)).map (·.consequent)

/-- The variables of the antecedents. -/
def bodyVariables (c : Clause) : List Variable :=
  c.antecedents.flatMap Atom.vars

/-- The variables of a clause, with repetitions. -/
def vars (c : Clause) : List Variable :=
  c.consequent.vars ++ c.bodyVariables

/-- Replaces every variable `x` by `f x`, all at once. -/
def bind (f : Variable → Term) (c : Clause) : Clause :=
  ⟨c.antecedents.map (·.bind f), c.consequent.bind f⟩

/-- The clause with `suffix` after the name of every variable, so that it shares no name with the
clauses it meets. -/
def standardizeApart (c : Clause) (suffix : String) : Clause :=
  c.bind fun x => .var (x.withSuffix suffix)

/-- The text of a clause. -/
def text (c : Clause) : String :=
  if c.isFact then c.consequent.text
  else " & ".intercalate (c.antecedents.map Atom.text) ++ " ==> " ++ c.consequent.text

/-- A clause can be printed. -/
def isPrintable (c : Clause) : Bool :=
  c.antecedents.all Atom.isPrintable && c.consequent.isPrintable

/-- A variable occurs whose name is a list. -/
def hasListedVariable (c : Clause) : Bool :=
  c.antecedents.any Atom.hasListedVariable || c.consequent.hasListedVariable

/-! ## Safety -/

/-- What can make a clause unsafe. -/
inductive Hazard
  /-- A fact that is not ground. -/
  | openFact
  /-- Variables of the consequent that no antecedent mentions. -/
  | unboundVariables (names : List String)
  /-- An argument of the consequent that is a compound term with variables. -/
  | builtTerm (t : Term)

/-- The variables of the consequent that no antecedent mentions. -/
def unbound (c : Clause) : List Variable :=
  c.consequent.vars.filter fun x => !c.bodyVariables.contains x

/-- A compound term with variables. -/
def buildsTerm : Term → Bool
  | .app f args => !(Term.app f args).isGround
  | _ => false

/-- The first reason why a clause is not safe. -/
def hazard? (c : Clause) : Option Hazard :=
  if c.unbound.isEmpty then (c.consequent.args.find? buildsTerm).map .builtTerm
  else if c.isFact then some .openFact
  else some (.unboundVariables (variableNames c.unbound))

/-- A clause that may enter a knowledge base. -/
def Safe (c : Clause) : Prop :=
  c.hazard? = none

instance (c : Clause) : Decidable c.Safe :=
  inferInstanceAs (Decidable (_ = _))

/-- The wording of a hazard. -/
def Hazard.message (c : Clause) : Hazard → String
  | .openFact => "facts must be ground: " ++ c.text
  | .unboundVariables names =>
    "consequent variables " ++ Text.quotedList names ++ " appear in no antecedent: " ++ c.text
  | .builtTerm t => "rule consequent builds a new term " ++ t.text ++ ": " ++ c.text

end Clause

end HornPlan
