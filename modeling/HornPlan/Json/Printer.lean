import HornPlan.Json.Basic

/-!
# Writing JSON

The text of a document holds ASCII characters only: every other character is written as one or two
`\u` escapes, one for each of its UTF-16 units.  A document is laid out over several lines, two
blanks a level, or on one line.
-/

namespace HornPlan.Json

/-- A `\u` escape of a 16-bit unit. -/
def unitEscape (unit : Nat) : List Char :=
  '\\' :: 'u' :: Text.hex 4 unit

/-- How one character is written inside a string. -/
def escapeChar (c : Char) : List Char :=
  if c = '"' ∨ c = '\\' then ['\\', c]
  else if c = '\n' then ['\\', 'n']
  else if c = '\r' then ['\\', 'r']
  else if c = '\t' then ['\\', 't']
  else if c = '\x08' then ['\\', 'b']
  else if c = '\x0c' then ['\\', 'f']
  else if 32 ≤ c.toNat ∧ c.toNat < 127 then [c]
  else if c.toNat < 0x10000 then unitEscape c.toNat
  else
    let offset := c.toNat - 0x10000
    unitEscape (0xd800 + offset / 0x400) ++ unitEscape (0xdc00 + offset % 0x400)

/-- The text of a string, between double quotes. -/
def printString (s : String) : String :=
  String.ofList ('"' :: s.toList.flatMap escapeChar ++ ['"'])

/-- The text of a number with a fraction or an exponent; `NaN` and the infinities have their
names. -/
def printReal : Text.Binary64 → String
  | .undefined => "NaN"
  | .infinite negative => if negative then "-Infinity" else "Infinity"
  | r => r.text

/-- A line break and the indentation of a level. -/
def newline (level : Nat) : String :=
  String.ofList ('\n' :: List.replicate (2 * level) ' ')

/-- Items set on lines of their own between two brackets; no items leave the brackets together. -/
def block (left right : String) (level : Nat) : List String → String
  | [] => left ++ right
  | items => left ++ newline (level + 1) ++ ("," ++ newline (level + 1)).intercalate items
      ++ newline level ++ right

mutual
/-- The text of a document that starts at a level of indentation. -/
def printAt (level : Nat) : Json → String
  | .null => "null"
  | .bool true => "true"
  | .bool false => "false"
  | .int n => toString n
  | .real r => printReal r
  | .str s => printString s
  | .arr items => block "[" "]" level (printItems (level + 1) items)
  | .obj fields => block "\x7b" "\x7d" level (printFields (level + 1) fields)
def printItems (level : Nat) : List Json → List String
  | [] => []
  | item :: rest => printAt level item :: printItems level rest
def printFields (level : Nat) : List (String × Json) → List String
  | [] => []
  | (name, value) :: rest =>
    (printString name ++ ": " ++ printAt level value) :: printFields level rest
end

/-- The text of a document, laid out over several lines. -/
def print (document : Json) : String :=
  printAt 0 document

mutual
/-- The text of a document on one line. -/
def compact : Json → String
  | .arr items => "[" ++ ", ".intercalate (compactItems items) ++ "]"
  | .obj fields => "\x7b" ++ ", ".intercalate (compactFields fields) ++ "\x7d"
  | .null => "null"
  | .bool true => "true"
  | .bool false => "false"
  | .int n => toString n
  | .real r => printReal r
  | .str s => printString s
def compactItems : List Json → List String
  | [] => []
  | item :: rest => compact item :: compactItems rest
def compactFields : List (String × Json) → List String
  | [] => []
  | (name, value) :: rest => (printString name ++ ": " ++ compact value) :: compactFields rest
end

end HornPlan.Json
