import HornPlan.Text.Binary64
import HornPlan.Text.Quoted

/-!
# JSON documents

Checkpoints, plan proposals and problem descriptions are JSON documents.  An object keeps its fields
in the order they were first written; a name written again takes the later value.  Whole numbers and
numbers with a fraction or an exponent are different values.
-/

namespace HornPlan

/-- A JSON document. -/
inductive Json
  | null
  | bool (value : Bool)
  | int (value : Int)
  | real (value : Text.Binary64)
  | str (value : String)
  | arr (items : List Json)
  | obj (fields : List (String × Json))

namespace Json

/-- The value of a field of an object. -/
def field? : Json → String → Option Json
  | .obj fields, name => fields.lookup name
  | _, _ => none

/-- Adds a field at the end, or replaces the value of the field of that name. -/
def setField (fields : List (String × Json)) (name : String) (value : Json) :
    List (String × Json) :=
  if fields.any (·.1 == name) then
    fields.map fun field => if field.1 == name then (name, value) else field
  else fields ++ [(name, value)]

/-- The items of an array. -/
def items? : Json → Option (List Json)
  | .arr items => some items
  | _ => none

/-- The text of a string. -/
def text? : Json → Option String
  | .str text => some text
  | _ => none

/-- A whole number. -/
def int? : Json → Option Int
  | .int n => some n
  | _ => none

/-- A truth value. -/
def bool? : Json → Option Bool
  | .bool b => some b
  | _ => none

/-- Empty containers, the empty text, zero, `false` and `null` count as false, all else as true. -/
def isTruthy : Json → Bool
  | .null => false
  | .bool b => b
  | .int n => n != 0
  | .real x => !x.isZero
  | .str s => s != ""
  | .arr items => !items.isEmpty
  | .obj fields => !fields.isEmpty

mutual
/-- How a document is shown inside a message. -/
def shown : Json → String
  | .null => "None"
  | .bool true => "True"
  | .bool false => "False"
  | .int n => toString n
  | .real r => r.text
  | .str s => Text.quoted s
  | .arr items => "[" ++ ", ".intercalate (shownItems items) ++ "]"
  | .obj fields => "\x7b" ++ ", ".intercalate (shownFields fields) ++ "\x7d"
def shownItems : List Json → List String
  | [] => []
  | item :: rest => shown item :: shownItems rest
def shownFields : List (String × Json) → List String
  | [] => []
  | (name, value) :: rest => (Text.quoted name ++ ": " ++ shown value) :: shownFields rest
end

/-- How a document is shown where text stands for itself. -/
def shownBare : Json → String
  | .str s => s
  | value => shown value

end Json

end HornPlan
