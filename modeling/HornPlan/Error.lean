import HornPlan.Clause
import HornPlan.Json.Reader

/-!
# Errors

Everything that can go wrong, by cause.  Two outcomes are not errors: terms that do not unify, and a
search that finds no plan.

A message may show terms.  Where one of them cannot be printed there is no message, and the error is
that something which is no text stands where a text is needed.
-/

namespace HornPlan

/-- Why something cannot be part of an expression. -/
inductive ExpressionFault
  | notVariable (name : Json)
  | notConstant (name : Json)
  | emptyConstant
  | emptySymbol
  | badArgument (symbol : Symbol) (part : Term)
  | badClausePart (part : Term)
  | notClause (part : Term)
  | badQueryPart (part : Term)

/-- Why an action schema is malformed, an action cannot be instantiated, or a problem is
ill-posed. -/
inductive SchemaFault
  | emptyName
  | badParameter (action : Symbol) (part : Term)
  | repeatedParameter (action : Symbol) (names : List String)
  | notAtom (action : Symbol) (part : Term)
  | arityClash (action predicate : Symbol) (first second : Nat)
  | strayVariables (action : Symbol) (names : List String) (atom : Atom)
  | contradiction (action : Symbol) (atoms : List String)
  | argumentCount (action : Symbol) (expected given : Nat)
  | mismatch (call signature : String)
  | notAction (part : Term)
  | goalNotAtom (part : Term)
  | unknownAction (name : String)
  | noSchemaFits (reasons : List String)

/-- Why a step asks for a ground action and there is none. -/
inductive OpenActionFault
  | unboundParameters (action : Symbol) (names : List String) (bindings : String)
  | notExecutable (action : String)

/-- Why a reply holds no plan. -/
inductive ReplyFault
  | unreadable (error : Json.ReadError)
  | noPlan
  | unnamedStep (index : Nat)
  | badArguments (index : Nat)

/-- Why a file cannot be opened. -/
inductive FileFault
  /-- The path holds a character that no path may hold. -/
  | invalidPath
  /-- The path, or a name in it, is too long. -/
  | tooLong
  | noSuchFile
  /-- A file stands where the path goes on. -/
  | notDirectory
  /-- The path ends at a directory. -/
  | isDirectory
  deriving DecidableEq

/-- An error. -/
inductive Error
  | expression (fault : ExpressionFault)
  | cyclicBinding (name : String) (term : Term)
  | hazardousClause (clause : Clause) (hazard : Clause.Hazard)
  | schema (fault : SchemaFault)
  | openAction (fault : OpenActionFault)
  | negativeBound (bound : Json)
  | unknownStrategy (name : Json) (known : List String)
  | reply (fault : ReplyFault)
  | unreadableFile (error : Json.ReadError)
  | missingKey (key : Json)
  /-- A value of another type was needed. -/
  | wrongType
  /-- A value does not have what is asked of it, such as a predicate. -/
  | unsupported
  /-- A place beyond the end of a list. -/
  | outOfRange
  /-- A chain of bindings that comes back to where it was. -/
  | endless
  | unreachableNode
  | interrupted
  | inputExhausted
  | file (fault : FileFault)

/-- An error of which the message shows what can or cannot be printed. -/
def Error.printing (printable : Bool) (error : Error) : Error :=
  if printable then error else .wrongType

/-! ## Wording -/

/-- The wording of a fault in an expression. -/
def ExpressionFault.message : ExpressionFault → String
  | .notVariable name => "variable names start with a lowercase letter, got " ++ name.shown
  | .notConstant name => "constant names must not start with a lowercase letter, got " ++ name.shown
  | .emptyConstant => "constant name must be non-empty"
  | .emptySymbol => "operator symbol must be non-empty"
  | .badArgument symbol part =>
    "argument of " ++ symbol.name ++ " is not an expression: " ++ part.shown
  | .badClausePart part => "clause parts must be operators, got " ++ part.shown
  | .notClause part => "not a clause or expression: " ++ part.shown
  | .badQueryPart part => "query parts must be operators, got " ++ part.shown

/-- The wording of a fault in a schema. -/
def SchemaFault.message : SchemaFault → String
  | .emptyName => "action name must be non-empty"
  | .badParameter action part =>
    action.name ++ ": parameter " ++ part.shown ++ " must be a variable or constant"
  | .repeatedParameter action names =>
    action.name ++ ": repeated parameter in " ++ Text.quotedList names
  | .notAtom action part => action.name ++ ": " ++ part.shown ++ " is not an operator expression"
  | .arityClash action predicate first second =>
    action.name ++ ": " ++ predicate.name ++ " used with arity " ++ toString first ++ " and "
      ++ toString second
  | .strayVariables action names atom =>
    action.name ++ ": variables " ++ Text.quotedList names ++ " in " ++ atom.text
      ++ " are not parameters"
  | .contradiction action atoms =>
    action.name ++ ": contradictory preconditions " ++ Text.quotedList atoms
  | .argumentCount action expected given =>
    action.name ++ " takes " ++ toString expected ++ " arguments, got " ++ toString given
  | .mismatch call signature => call ++ " does not match " ++ signature
  | .notAction part => "not an action: " ++ part.shown
  | .goalNotAtom part => "goal " ++ part.shown ++ " is not an operator expression"
  | .unknownAction name => "unknown action '" ++ name ++ "'"
  | .noSchemaFits reasons => "; ".intercalate reasons

/-- The wording of a fault with an action that is not ground. -/
def OpenActionFault.message : OpenActionFault → String
  | .unboundParameters action names bindings =>
    action.name ++ ": parameters " ++ Text.quotedList names ++ " left unbound by " ++ bindings
  | .notExecutable action => action ++ " must be ground before it is executed"

/-- The wording of a fault in a reply. -/
def ReplyFault.message : ReplyFault → String
  | .unreadable error => error.message
  | .noPlan => "reply has no 'plan' list"
  | .unnamedStep index => "plan item " ++ toString index ++ " has no action name"
  | .badArguments index =>
    "plan item " ++ toString index ++ ": 'args' must be a list of strings"

/-- The wording of a fault with a file. -/
def FileFault.message : FileFault → String
  | .invalidPath => "the path holds a character that no path may hold"
  | .tooLong => "the path is too long"
  | .noSuchFile => "no such file"
  | .notDirectory => "a part of the path is no directory"
  | .isDirectory => "the path is that of a directory"

/-- The wording of an error. -/
def Error.message : Error → String
  | .expression fault => fault.message
  | .cyclicBinding name term => "cyclic binding: " ++ name ++ " -> " ++ term.text
  | .hazardousClause clause hazard => hazard.message clause
  | .schema fault => fault.message
  | .openAction fault => fault.message
  | .negativeBound bound => "bound must be non-negative, got " ++ bound.shownBare
  | .unknownStrategy name known =>
    "unknown strategy " ++ name.shown ++ "; choose from " ++ Text.quotedList known
  | .reply fault => fault.message
  | .unreadableFile error => error.message
  | .missingKey key => key.shown
  | .wrongType => "a value has the wrong type"
  | .unsupported => "a value does not support what is asked of it"
  | .outOfRange => "there is nothing at that place"
  | .endless => "a chain of bindings has no end"
  | .unreachableNode => "the goal is unreachable from a node of the frontier"
  | .interrupted => "interrupted"
  | .inputExhausted => "the input ended"
  | .file fault => fault.message

end HornPlan
