import HornPlan.Expression

/-!
# Terms as data

A variable is written `{"var": name}`, a constant `{"const": name}`, and a compound term
`{"op": symbol, "args": [...]}`, where the arguments may be left out.  Reading what was written
gives back the term.  A bare value is its own document, and no term is read from it.
-/

namespace HornPlan

/-- A symbol as a JSON document. -/
def Symbol.toData : Symbol → Json
  | .text name _ => .str name
  | .value v _ _ => v

/-- What stands in the place of a term as a JSON document.  A name that is a list is written like
any other. -/
def Foreign.toData : Foreign → Json
  | .listed first rest =>
    .obj [(if Text.isLowercaseText first then "var" else "const", listName first rest)]
  | .value v => v

mutual
/-- A term as a JSON document. -/
def Term.toData : Term → Json
  | .var x => .obj [("var", .str x.name)]
  | .const c => .obj [("const", .str c.name)]
  | .app f args => .obj [("op", f.toData), ("args", .arr (Term.toDataList args))]
  | .foreign f => f.toData
def Term.toDataList : List Term → List Json
  | [] => []
  | t :: ts => Term.toData t :: Term.toDataList ts
end

/-- An atom as a JSON document. -/
def Atom.toData (a : Atom) : Json :=
  a.toTerm.toData

/-- The text of a document that has to be a string. -/
def Json.requireText : Json → Except Error String
  | .str s => .ok s
  | _ => .error .wrongType

/-- What a document holds one after another: an array its items, an object its keys, a string its
characters. -/
def Json.requireItems : Json → Except Error (List Json)
  | .arr items => .ok items
  | .obj fields => .ok (fields.map fun field => .str field.1)
  | .str s => .ok (s.toList.map fun c => .str (String.singleton c))
  | _ => .error .wrongType

/-- A field that a document has to have. -/
def Json.require (document : Json) (key : String) : Except Error Json :=
  match document with
  | .obj fields =>
    match fields.lookup key with
    | some value => .ok value
    | none => .error (.missingKey (.str key))
  | _ => .error .wrongType

/-- The items of a field that may be left out. -/
def Json.optionalItems (document : Json) (key : String) : Except Error (List Json) :=
  match document.field? key with
  | some value => value.requireItems
  | none => .ok []

/-! ## Names -/

/-- Reads a symbol.  A document without content, such as `null`, stands for none. -/
def Symbol.ofData? (document : Json) : Option Symbol :=
  match h : document.text? with
  | some name => Symbol.ofText? name
  | none => if content : document.isTruthy = true then some (.value document content h) else none

/-- Reads a symbol to look something up by.  A list or an object is nothing to look up by. -/
def Json.requireKey (document : Json) : Except Error (Option Symbol) :=
  if document.isIndexable then .ok (Symbol.ofData? document) else .error .wrongType

/-- What stands for a name starts with a lowercase character.  Of a list the first item counts, as a
whole, and a list or an object without content starts with nothing. -/
def Json.startsLowercase? : Json → Except Error Bool
  | .str name => .ok (Text.startsLowercase name)
  | .arr [] => .ok false
  | .obj [] => .ok false
  | .arr (.str first :: _) => .ok (Text.isLowercaseText first)
  | .arr _ => .error .unsupported
  | .obj _ => .error (.missingKey (.int 0))
  | _ => .error .wrongType

/-- A name that is a list, as it stands. -/
def Json.listed : Json → Except Error Term
  | .arr (.str first :: rest) => .ok (.foreign (.listed first rest))
  | _ => .error .wrongType

/-- Reads a variable by its name. -/
def Term.ofVariableData? : Json → Except Error Term
  | .str name => (Variable.ofName? name).map .var
  | document => do
    if ← document.startsLowercase? then document.listed
    else throw (.expression (.notVariable document))

/-- Reads a constant by its name.  A document without content is an empty name. -/
def Term.ofConstantData? : Json → Except Error Term
  | .str name => (Constant.ofName? name).map .const
  | document => do
    if !document.isTruthy then throw (.expression .emptyConstant)
    if ← document.startsLowercase? then throw (.expression (.notConstant document))
    else document.listed

/-- Reads a variable or a constant by its name, whichever its first character makes it. -/
def Term.ofNameData? (document : Json) : Except Error Term := do
  if ← document.startsLowercase? then Term.ofVariableData? document
  else Term.ofConstantData? document

/-! ## Terms -/

mutual
/-- Reads a term.  The keys are looked for in the order variable, constant, symbol; the arguments
are read before the symbol is checked.  What an argument is made of has to be an object, so that of
the documents which are no array only an empty one holds the arguments. -/
def Term.ofData? : Json → Except Error Term
  | .obj fields =>
    match fields.lookup "var" with
    | some name => Term.ofVariableData? name
    | none =>
      match fields.lookup "const" with
      | some name => Term.ofConstantData? name
      | none =>
        match fields.lookup "op" with
        | none => .error (.missingKey (.str "op"))
        | some name => do
          let args ← Term.ofArgsField? fields
          Term.build? (Symbol.ofData? name) args
  | _ => .error .wrongType
def Term.ofArgsField? : List (String × Json) → Except Error (List Term)
  | [] => .ok []
  | (name, .arr items) :: rest =>
    if name = "args" then Term.ofDataList? items else Term.ofArgsField? rest
  | (name, other) :: rest =>
    if name = "args" then
      match other.requireItems with
      | .ok [] => .ok []
      | _ => .error .wrongType
    else Term.ofArgsField? rest
def Term.ofDataList? : List Json → Except Error (List Term)
  | [] => .ok []
  | item :: rest => do
    let t ← Term.ofData? item
    let ts ← Term.ofDataList? rest
    return t :: ts
end

end HornPlan
