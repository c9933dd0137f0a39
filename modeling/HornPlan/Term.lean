import HornPlan.Json.Value
import HornPlan.Text.Uppercase

/-!
# First-order terms and atoms

A term is a variable, a constant, or a function symbol applied to terms.  The first character of a
name decides what it names: a variable starts with a lowercase character, a constant does not, and a
symbol may be any text but the empty one.  An atom is a predicate applied to terms; a fact is a
ground atom.

A symbol applied to no terms is not a constant, although both print as their name.

Names and symbols are nearly always texts.  A document may put something else in their place, and
may put a value where a term is expected.  What is built from such things is kept as it is, as far
as it goes: it can be compared, and some of it can be printed and looked up.  Two terms are equal
when they are built alike from names and symbols of the same value, so that the symbols `1` and
`1.0` are equal.
-/

namespace HornPlan

/-- A name that starts with a lowercase character. -/
structure Variable where
  name : String
  lowercase : Text.startsLowercase name = true
  deriving DecidableEq

/-- A nonempty name that does not start with a lowercase character. -/
structure Constant where
  name : String
  nonempty : name ≠ ""
  notLowercase : Text.startsLowercase name = false
  deriving DecidableEq

/-- The name of a predicate, a function or an action: a text that is not empty, or what a document
has in the place of one, as long as it has any content. -/
inductive Symbol
  | text (name : String) (nonempty : name ≠ "")
  | value (v : Json) (content : v.isTruthy = true) (notText : v.text? = none)

/-- What stands in the place of a term without being one: a variable or a constant whose name is a
list that starts with a text, or a bare value. -/
inductive Foreign
  | listed (first : String) (rest : List Json)
  | value (v : Json)

/-- A first-order term, or what stands in the place of one. -/
inductive Term
  | var (x : Variable)
  | const (c : Constant)
  | app (f : Symbol) (args : List Term)
  | foreign (f : Foreign)

/-- A variable or a constant standing by itself. -/
inductive SimpleTerm
  | var (x : Variable)
  | const (c : Constant)
  | listed (first : String) (rest : List Json) (constant : Text.isLowercaseText first = false)

/-- A predicate applied to terms. -/
structure Atom where
  predicate : Symbol
  args : List Term

/-! ## Symbols -/

namespace Symbol

/-- The text of a symbol. -/
def name : Symbol → String
  | text name _ => name
  | value v _ _ => v.shown

/-- A symbol that is a text. -/
def isText : Symbol → Bool
  | text _ _ => true
  | value _ _ _ => false

/-- Something can be looked up by a symbol. -/
def isIndexable : Symbol → Bool
  | text _ _ => true
  | value v _ _ => v.isIndexable

/-- Two symbols are the same text or have the same value. -/
def same : Symbol → Symbol → Bool
  | text a _, text b _ => a == b
  | value v _ _, value w _ _ => v.same w
  | _, _ => false

instance : BEq Symbol :=
  ⟨same⟩

/-- A symbol that is no number, although it stands where numbers do: it differs from every symbol,
itself included, unless the terms that it heads are equal as wholes. -/
def isUndefined : Symbol → Bool
  | value v _ _ => v.quantity? = some .undefined
  | text _ _ => false

end Symbol

/-! ## What stands in the place of a term -/

namespace Foreign

/-- A name that is a list, as a document. -/
def listName (first : String) (rest : List Json) : Json :=
  .arr (.str first :: rest)

/-- A variable, of which the name is a list. -/
def isVariable : Foreign → Bool
  | listed first _ => Text.isLowercaseText first
  | value _ => false

/-- Something can be looked up by it. -/
def isIndexable : Foreign → Bool
  | listed _ _ => false
  | value v => v.isIndexable

/-- Its text.  A list in the place of a name is shown, although it is no text. -/
def text : Foreign → String
  | listed first rest => (listName first rest).shown
  | value v => v.shownBare

/-- How it is shown in a message. -/
def shown : Foreign → String
  | listed first rest =>
    (if Text.isLowercaseText first then "Variable(" else "Constant(") ++ (listName first rest).shown
      ++ ")"
  | value v => v.shown

/-- Two names of the same value, or two values that are the same. -/
def same : Foreign → Foreign → Bool
  | listed first rest, listed other others => (listName first rest).same (listName other others)
  | value v, value w => v.same w
  | _, _ => false

instance : BEq Foreign :=
  ⟨same⟩

end Foreign

/-! ## Equality -/

mutual
/-- Two terms are built alike from equal names and symbols. -/
def Term.same : (t u : Term) → Bool
  | .var x, .var y => x == y
  | .const c, .const d => c == d
  | .app f ts, .app g us => f == g && Term.sameList ts us
  | .foreign a, .foreign b => a == b
  | _, _ => false
def Term.sameList : (ts us : List Term) → Bool
  | [], [] => true
  | t :: ts, u :: us => Term.same t u && Term.sameList ts us
  | _, _ => false
end

instance : BEq Term :=
  ⟨Term.same⟩

instance : BEq Atom :=
  ⟨fun a b => a.predicate == b.predicate && a.args == b.args⟩

theorem Term.sameList_eq_beq (ts us : List Term) : Term.sameList ts us = (ts == us) := by
  induction ts generalizing us with
  | nil => cases us <;> rfl
  | cons t ts ih =>
    cases us with
    | nil => rfl
    | cons u us => exact congrArg (Term.same t u && ·) (ih us)

/-! ## Names inside a term -/

namespace Term

mutual
/-- The variables of a term from left to right, with repetitions.  A variable whose name is a list
is not among them. -/
def vars : Term → List Variable
  | var x => [x]
  | const _ => []
  | app _ args => varsList args
  | foreign _ => []
def varsList : List Term → List Variable
  | [] => []
  | t :: ts => vars t ++ varsList ts
end

mutual
/-- The constants of a term from left to right, with repetitions. -/
def constants : Term → List Constant
  | var _ => []
  | const c => [c]
  | app _ args => constantsList args
  | foreign _ => []
def constantsList : List Term → List Constant
  | [] => []
  | t :: ts => constants t ++ constantsList ts
end

mutual
/-- A term and everything inside it. -/
def subterms : Term → List Term
  | var x => [var x]
  | const c => [const c]
  | app f args => app f args :: subtermsList args
  | foreign f => [foreign f]
def subtermsList : List Term → List Term
  | [] => []
  | t :: ts => subterms t ++ subtermsList ts
end

mutual
/-- A variable occurs whose name is a list. -/
def hasListedVariable : Term → Bool
  | var _ => false
  | const _ => false
  | app _ args => haveListedVariable args
  | foreign f => f.isVariable
def haveListedVariable : List Term → Bool
  | [] => false
  | t :: ts => hasListedVariable t || haveListedVariable ts
end

/-- A term without variables. -/
def isGround (t : Term) : Bool :=
  t.vars.isEmpty && !t.hasListedVariable

mutual
/-- Replaces every variable `x` by `f x`, all at once. -/
def bind (f : Variable → Term) : Term → Term
  | var x => f x
  | const c => const c
  | app g args => app g (bindList f args)
  | foreign a => foreign a
def bindList (f : Variable → Term) : List Term → List Term
  | [] => []
  | t :: ts => bind f t :: bindList f ts
end

theorem bindList_eq_map (f : Variable → Term) (ts : List Term) :
    bindList f ts = ts.map (bind f) := by
  induction ts with
  | nil => rfl
  | cons t ts ih => rw [bindList, ih, List.map_cons]

theorem varsList_eq_flatMap (ts : List Term) :
    varsList ts = ts.flatMap vars := by
  induction ts with
  | nil => rfl
  | cons t ts ih => rw [varsList, ih, List.flatMap_cons]

/-! ## Text -/

mutual
/-- A name, or a symbol with its arguments in parentheses; a symbol without arguments stands
alone. -/
def text : Term → String
  | var x => x.name
  | const c => c.name
  | app f [] => f.name
  | app f (t :: ts) => f.name ++ "(" ++ ", ".intercalate (text t :: texts ts) ++ ")"
  | foreign f => f.text
def texts : List Term → List String
  | [] => []
  | t :: ts => text t :: texts ts
end

mutual
/-- A term can be printed where every name in it is a text, and every symbol without arguments. -/
def isPrintable : Term → Bool
  | var _ => true
  | const _ => true
  | app f args => (f.isText || !args.isEmpty) && arePrintable args
  | foreign (.listed _ _) => false
  | foreign (.value _) => true
def arePrintable : List Term → Bool
  | [] => true
  | t :: ts => isPrintable t && arePrintable ts
end

/-- How a term is shown in a message: its kind and its quoted text. -/
def shown : Term → String
  | var x => "Variable(" ++ Text.quoted x.name ++ ")"
  | const c => "Constant(" ++ Text.quoted c.name ++ ")"
  | app f args => "Operator(" ++ Text.quoted (app f args).text ++ ")"
  | foreign f => f.shown

/-- A message can show a term: a name that is a list is shown as a list, and a compound term by its
text. -/
def isShowable : Term → Bool
  | app f args => (app f args).isPrintable
  | _ => true

/-! ## Looking up -/

mutual
/-- Something can be looked up by a term when it can be by every name and symbol in it. -/
def isIndexable : Term → Bool
  | var _ => true
  | const _ => true
  | app f args => f.isIndexable && areIndexable args
  | foreign f => f.isIndexable
def areIndexable : List Term → Bool
  | [] => true
  | t :: ts => isIndexable t && areIndexable ts
end

/-- A term that is an atom: its outermost symbol is read as a predicate. -/
def atom? : Term → Option Atom
  | app f args => some ⟨f, args⟩
  | _ => none

end Term

/-! ## Simple terms -/

namespace SimpleTerm

/-- A simple term as a term. -/
def toTerm : SimpleTerm → Term
  | var x => .var x
  | const c => .const c
  | listed first rest _ => .foreign (.listed first rest)

/-- A term that is a variable or a constant.  A variable has to have a text for its name. -/
def ofTerm? : Term → Option SimpleTerm
  | .var x => some (.var x)
  | .const c => some (.const c)
  | .foreign (.listed first rest) =>
    if h : Text.isLowercaseText first = false then some (.listed first rest h) else none
  | .app _ _ => none
  | .foreign (.value _) => none

instance : BEq SimpleTerm :=
  ⟨fun t u => t.toTerm == u.toTerm⟩

/-- A constant. -/
def isConstant : SimpleTerm → Bool
  | var _ => false
  | const _ => true
  | listed _ _ _ => true

end SimpleTerm

/-! ## Atoms -/

namespace Atom

/-- An atom as a term: the predicate becomes the outermost symbol. -/
def toTerm (a : Atom) : Term :=
  .app a.predicate a.args

/-- The predicate and its number of arguments.  Only atoms of one key can be made equal. -/
def key (a : Atom) : Symbol × Nat :=
  (a.predicate, a.args.length)

/-- The variables of an atom from left to right, with repetitions. -/
def vars (a : Atom) : List Variable :=
  Term.varsList a.args

/-- The constants of an atom from left to right, with repetitions. -/
def constants (a : Atom) : List Constant :=
  Term.constantsList a.args

/-- A variable occurs whose name is a list. -/
def hasListedVariable (a : Atom) : Bool :=
  Term.haveListedVariable a.args

/-- An atom without variables. -/
def isGround (a : Atom) : Bool :=
  a.vars.isEmpty && !a.hasListedVariable

/-- Replaces every variable `x` by `f x`, all at once. -/
def bind (f : Variable → Term) (a : Atom) : Atom :=
  ⟨a.predicate, a.args.map (·.bind f)⟩

/-- The text of an atom. -/
def text (a : Atom) : String :=
  a.toTerm.text

/-- An atom can be printed. -/
def isPrintable (a : Atom) : Bool :=
  a.toTerm.isPrintable

/-- Something can be looked up by an atom. -/
def isIndexable (a : Atom) : Bool :=
  a.toTerm.isIndexable

end Atom

/-! ## Renaming -/

theorem startsLowercase_append {name : String} (suffix : String)
    (h : Text.startsLowercase name = true) : Text.startsLowercase (name ++ suffix) = true := by
  unfold Text.startsLowercase at h ⊢
  rw [String.toList_append]
  cases hname : name.toList with
  | nil => rw [hname] at h; exact absurd h Bool.false_ne_true
  | cons c rest => rw [hname] at h; exact h

/-- The variable with `suffix` after its name. -/
def Variable.withSuffix (x : Variable) (suffix : String) : Variable :=
  ⟨x.name ++ suffix, startsLowercase_append suffix x.lowercase⟩

/-! ## Lists of names -/

/-- The distinct names, in the order of their code points. -/
def sortedNames (names : List String) : List String :=
  names.eraseDups.mergeSort fun a b => decide (a ≤ b)

/-- The sorted names of variables. -/
def variableNames (xs : List Variable) : List String :=
  sortedNames (xs.map (·.name))

end HornPlan
