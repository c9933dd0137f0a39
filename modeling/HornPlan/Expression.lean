import HornPlan.Error

/-!
# Building expressions

Terms, clauses and queries from names and terms.  Each function refuses what does not form an
expression and says why; the order of its checks decides which of two faults is reported.
-/

namespace HornPlan

/-! ## Names -/

/-- The variable of a name. -/
def Variable.ofName? (name : String) : Except Error Variable :=
  if h : Text.startsLowercase name = true then .ok ⟨name, h⟩
  else .error (.expression (.notVariable (.str name)))

/-- The constant of a name. -/
def Constant.ofName? (name : String) : Except Error Constant :=
  if empty : name = "" then .error (.expression .emptyConstant)
  else if h : Text.startsLowercase name = false then .ok ⟨name, empty, h⟩
  else .error (.expression (.notConstant (.str name)))

/-- The symbol of a text, unless the text is empty. -/
def Symbol.ofText? (name : String) : Option Symbol :=
  if h : name = "" then none else some (.text name h)

/-- The variable or the constant of a name, whichever its first character makes it. -/
def Term.ofName? (name : String) : Except Error Term :=
  if Text.startsLowercase name then (Variable.ofName? name).map .var
  else (Constant.ofName? name).map .const

/-- Reads a bare text as the name of a variable or a constant, and leaves everything else alone. -/
def Term.named : Term → Except Error Term
  | .foreign (.value (.str name)) => Term.ofName? name
  | t => .ok t

/-! ## Compound terms and atoms -/

/-- What can be an argument: anything but a bare value. -/
def Term.asArgument (symbol : Symbol) : Term → Except Error Term
  | .foreign (.value v) => .error (.expression (.badArgument symbol (.foreign (.value v))))
  | t => .ok t

/-- A predicate applied to arguments.  Without a predicate there is no atom. -/
def Atom.build? (predicate : Option Symbol) (args : List Term) : Except Error Atom :=
  match predicate with
  | none => .error (.expression .emptySymbol)
  | some symbol => do
    let args ← args.mapM (·.asArgument symbol)
    return ⟨symbol, args⟩

/-- A function symbol applied to arguments. -/
def Term.build? (symbol : Option Symbol) (args : List Term) : Except Error Term :=
  (Atom.build? symbol args).map Atom.toTerm

/-- A predicate applied to the variables and constants of the given names. -/
def Atom.ofNames? (name : String) (args : List String) : Except Error Atom := do
  let args ← args.mapM Term.ofName?
  Atom.build? (Symbol.ofText? name) args

/-! ## Clauses and queries -/

/-- A term as a part of a clause. -/
def Term.asClausePart (t : Term) : Except Error Atom :=
  match t.atom? with
  | some a => .ok a
  | none => .error (.expression (.badClausePart t))

/-- The clause of the given parts; the consequent is checked before the antecedents. -/
def Clause.ofParts? (antecedents : List Term) (consequent : Term) : Except Error Clause := do
  let consequent ← consequent.asClausePart
  let antecedents ← antecedents.mapM Term.asClausePart
  return ⟨antecedents, consequent⟩

/-- A term as a clause: an atom is the fact that it holds. -/
def Clause.ofTerm? (t : Term) : Except Error Clause :=
  match t.atom? with
  | some a => .ok (.ofAtom a)
  | none => .error (.expression (.notClause t))

/-- A clause, or a term that stands for one. -/
abbrev Statement := Clause ⊕ Term

/-- Reads what stands for a clause. -/
def Statement.clause? : Statement → Except Error Clause
  | .inl c => .ok c
  | .inr t => Clause.ofTerm? t

/-- What is asked: one goal, or several to hold together. -/
inductive Query
  | one (goal : Term)
  | all (goals : List Term)

/-- The goals of a query, in order.  A lone goal that is no atom cannot be read as a list. -/
def Query.goals? : Query → Except Error (List Atom)
  | .one goal =>
    match goal.atom? with
    | some a => .ok [a]
    | none => .error .wrongType
  | .all goals => goals.mapM fun goal =>
    match goal.atom? with
    | some a => .ok a
    | none => .error (.expression (.badQueryPart goal))

/-! ## Safety -/

/-- Why a clause cannot be told: a variable of it has a list for its name, or it is not safe. -/
def Clause.refusal? (c : Clause) : Option Error :=
  if c.hasListedVariable then some .wrongType
  else c.hazard?.map fun hazard => .printing c.isPrintable (.hazardousClause c hazard)

/-- A clause that is safe, or the error that it is not. -/
def Clause.checkSafe (c : Clause) : Except Error Clause :=
  match c.refusal? with
  | none => .ok c
  | some error => .error error

theorem Clause.safe_of_refusal?_eq_none {c : Clause} (h : c.refusal? = none) : c.Safe := by
  unfold refusal? at h
  split at h
  · cases h
  · exact Option.map_eq_none_iff.1 h

end HornPlan
