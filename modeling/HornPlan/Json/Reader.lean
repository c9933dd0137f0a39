import HornPlan.Json.Basic

/-!
# Reading JSON

A recursive descent reader that also says where and why a text is not a document.  It accepts
`NaN`, `Infinity` and `-Infinity`.  `readLeading?` reads the document at the start of a text and
returns what follows it; `read?` allows only white space around the document.

Each function returns the characters it left unread, so a position is the length of the text less
the number of characters left.
-/

namespace HornPlan.Json

/-- Why a text is not a document. -/
inductive Fault
  | expectingValue
  | expectingName
  | expectingColon
  | expectingComma
  | unterminatedString
  | invalidEscape
  | invalidUnit
  | controlCharacter
  | extraData
  | byteOrderMark
  deriving DecidableEq

/-- The wording of a fault. -/
def Fault.message : Fault → String
  | .expectingValue => "Expecting value"
  | .expectingName => "Expecting property name enclosed in double quotes"
  | .expectingColon => "Expecting ':' delimiter"
  | .expectingComma => "Expecting ',' delimiter"
  | .unterminatedString => "Unterminated string starting at"
  | .invalidEscape => "Invalid \\escape"
  | .invalidUnit => "Invalid \\uXXXX escape"
  | .controlCharacter => "Invalid control character at"
  | .extraData => "Extra data"
  | .byteOrderMark => "Unexpected UTF-8 BOM (decode using utf-8-sig)"

/-- A fault, or a whole number with too many digits, at the place where `left` characters follow. -/
inductive Failure
  | fault (kind : Fault) (left : Nat)
  | tooManyDigits (count : Nat)

/-- What a reader returns: a value and the characters after it. -/
abbrev Reading (α : Type) := Except Failure (α × List Char)

/-- White space between tokens. -/
def isSpace (c : Char) : Bool :=
  c = ' ' || c = '\t' || c = '\n' || c = '\r'

/-- Skips white space. -/
def skipSpace (text : List Char) : List Char :=
  text.dropWhile isSpace

/-! ## Strings -/

/-- The value of a hexadecimal digit. -/
def hexValue? (c : Char) : Option Nat :=
  if '0' ≤ c ∧ c ≤ '9' then some (c.toNat - 48)
  else if 'a' ≤ c ∧ c ≤ 'f' then some (c.toNat - 87)
  else if 'A' ≤ c ∧ c ≤ 'F' then some (c.toNat - 55)
  else none

/-- Four hexadecimal digits at the start of a text. -/
def unit? : List Char → Option Nat
  | a :: b :: c :: d :: _ =>
    [a, b, c, d].foldl
      (fun n c => n.bind fun n => (hexValue? c).map fun d => 16 * n + d) (some 0)
  | _ => none

/-- The character a one-letter escape stands for. -/
def escaped? : Char → Option Char
  | '"' => some '"'
  | '\\' => some '\\'
  | '/' => some '/'
  | 'b' => some '\x08'
  | 'f' => some '\x0c'
  | 'n' => some '\n'
  | 'r' => some '\r'
  | 't' => some '\t'
  | _ => none

/-- Reads the four digits after `\u`, and a second escape where the two units form a pair.  At least
one character has to follow the digits.  A unit that stands alone for half a character is read as
the replacement character. -/
def readUnit (text : List Char) : Reading Char :=
  if (text.drop 4).isEmpty then .error (.fault .invalidUnit (text.length + 1))
  else
    match unit? text with
    | none => .error (.fault .invalidUnit (text.length + 1))
    | some high =>
      let rest := text.drop 4
      if 0xd800 ≤ high ∧ high < 0xdc00 then
        match rest with
        | '\\' :: 'u' :: low =>
          if (low.drop 4).isEmpty then .ok ('\ufffd', rest)
          else
            match unit? low with
            | none => .error (.fault .invalidUnit (low.length + 1))
            | some second =>
              if 0xdc00 ≤ second ∧ second < 0xe000 then
                .ok (Char.ofNat (0x10000 + (high - 0xd800) * 0x400 + (second - 0xdc00)),
                  low.drop 4)
              else .ok ('\ufffd', rest)
        | _ => .ok ('\ufffd', rest)
      else if 0xdc00 ≤ high ∧ high < 0xe000 then .ok ('\ufffd', rest)
      else .ok (Char.ofNat high, rest)

/-- Reads a string after its opening quote; `opening` is the text from that quote on.  A character
is read for each unit of `fuel`. -/
def readString (opening : List Char) : (fuel : Nat) → List Char → List Char → Reading String
  | 0, _, _ => .error (.fault .unterminatedString opening.length)
  | fuel + 1, done, text =>
    match text with
    | [] => .error (.fault .unterminatedString opening.length)
    | '"' :: rest => .ok (String.ofList done.reverse, rest)
    | '\\' :: rest =>
      match rest with
      | [] => .error (.fault .unterminatedString opening.length)
      | 'u' :: digits =>
        match readUnit digits with
        | .error failure => .error failure
        | .ok (c, rest) => readString opening fuel (c :: done) rest
      | letter :: rest =>
        match escaped? letter with
        | none => .error (.fault .invalidEscape text.length)
        | some c => readString opening fuel (c :: done) rest
    | c :: rest =>
      if c.toNat < 32 then .error (.fault .controlCharacter text.length)
      else readString opening fuel (c :: done) rest

/-! ## Numbers -/

/-- A decimal digit. -/
def isDigit (c : Char) : Bool :=
  '0' ≤ c && c ≤ '9'

/-- The number that a list of decimal digits writes. -/
def ofDigits (digits : List Char) : Nat :=
  digits.foldl (fun n c => 10 * n + (c.toNat - 48)) 0

/-- The digits before the point: a single zero, or digits that start with another one. -/
def wholePart? : List Char → Option (List Char × List Char)
  | '0' :: rest => some (['0'], rest)
  | c :: rest =>
    if isDigit c then some (c :: rest.takeWhile isDigit, rest.dropWhile isDigit) else none
  | [] => none

/-- The digits after a point, where a point and a digit follow. -/
def fractionPart : List Char → List Char × List Char
  | '.' :: c :: rest =>
    if isDigit c then (c :: rest.takeWhile isDigit, rest.dropWhile isDigit)
    else ([], '.' :: c :: rest)
  | rest => ([], rest)

/-- The exponent, where a letter, perhaps a sign, and a digit follow. -/
def exponentPart (text : List Char) : Option Int × List Char :=
  let digitsAfter (negative : Bool) (rest : List Char) : Option Int × List Char :=
    match rest.takeWhile isDigit with
    | [] => (none, text)
    | digits =>
      let size : Int := ofDigits digits
      (some (if negative then -size else size), rest.dropWhile isDigit)
  match text with
  | c :: rest =>
    if c = 'e' ∨ c = 'E' then
      match rest with
      | '-' :: rest => digitsAfter true rest
      | '+' :: rest => digitsAfter false rest
      | rest => digitsAfter false rest
    else (none, text)
  | [] => (none, text)

/-- The most digits a whole number may have. -/
def maxDigits : Nat := 4300

/-- Reads a number; `start` is the number of characters from its first one to the end. -/
def readNumber (text : List Char) : Reading Json :=
  let (negative, unsigned) :=
    match text with
    | '-' :: rest => (true, rest)
    | rest => (false, rest)
  match wholePart? unsigned with
  | none => .error (.fault .expectingValue text.length)
  | some (whole, afterWhole) =>
    let (fraction, afterFraction) := fractionPart afterWhole
    let (exponent, rest) := exponentPart afterFraction
    if fraction.isEmpty && exponent.isNone then
      if maxDigits < whole.length then .error (.tooManyDigits whole.length)
      else
        let size : Int := ofDigits whole
        .ok (.int (if negative then -size else size), rest)
    else
      let digits := ofDigits (whole ++ fraction)
      .ok (.real (.ofDecimal negative digits (exponent.getD 0 - fraction.length)), rest)

/-! ## Documents -/

/-- The words that stand for a value. -/
def words : List (List Char × Json) :=
  [("null".toList, .null), ("true".toList, .bool true), ("false".toList, .bool false),
   ("NaN".toList, .real .undefined), ("Infinity".toList, .real (.infinite false)),
   ("-Infinity".toList, .real (.infinite true))]

/-- The word at the start of a text, and what follows it. -/
def word? (text : List Char) : Option (Json × List Char) :=
  (words.find? fun word => word.1.isPrefixOf text).map fun word =>
    (word.2, text.drop word.1.length)

mutual
/-- Reads the document at the start of a text.  Of two calls, one inside the other, the first spends
a unit of `fuel` and one of the two consumes a character, so twice the length of a text is
enough. -/
def readValue : (fuel : Nat) → List Char → Reading Json
  | 0, text => .error (.fault .expectingValue text.length)
  | fuel + 1, text =>
    match text with
    | '"' :: rest =>
      match readString text fuel [] rest with
      | .error failure => .error failure
      | .ok (s, rest) => .ok (.str s, rest)
    | '\x7b' :: rest =>
      match skipSpace rest with
      | '\x7d' :: rest => .ok (.obj [], rest)
      | rest => readFields fuel [] rest
    | '[' :: rest =>
      match skipSpace rest with
      | ']' :: rest => .ok (.arr [], rest)
      | rest => readItems fuel [] rest
    | _ =>
      match word? text with
      | some found => .ok found
      | none => readNumber text
def readItems : (fuel : Nat) → List Json → List Char → Reading Json
  | 0, _, text => .error (.fault .expectingValue text.length)
  | fuel + 1, done, text =>
    match readValue fuel text with
    | .error failure => .error failure
    | .ok (item, rest) =>
      match skipSpace rest with
      | ']' :: rest => .ok (.arr (done ++ [item]), rest)
      | ',' :: rest => readItems fuel (done ++ [item]) (skipSpace rest)
      | rest => .error (.fault .expectingComma rest.length)
def readFields : (fuel : Nat) → List (String × Json) → List Char → Reading Json
  | 0, _, text => .error (.fault .expectingName text.length)
  | fuel + 1, done, text =>
    match text with
    | '"' :: rest =>
      match readString text fuel [] rest with
      | .error failure => .error failure
      | .ok (name, rest) =>
        match skipSpace rest with
        | ':' :: rest =>
          match readValue fuel (skipSpace rest) with
          | .error failure => .error failure
          | .ok (value, rest) =>
            let done := setField done name value
            match skipSpace rest with
            | '\x7d' :: rest => .ok (.obj done, rest)
            | ',' :: rest => readFields fuel done (skipSpace rest)
            | rest => .error (.fault .expectingComma rest.length)
        | rest => .error (.fault .expectingColon rest.length)
    | rest => .error (.fault .expectingName rest.length)
end

/-- Why a text could not be read, and where: the line and the column count from one, the offset
counts characters from zero. -/
inductive ReadError
  | malformed (fault : Fault) (line column offset : Nat)
  | tooManyDigits (count : Nat)

/-- The wording of a reading error. -/
def ReadError.message : ReadError → String
  | .malformed fault line column offset =>
    fault.message ++ ": line " ++ toString line ++ " column " ++ toString column
      ++ " (char " ++ toString offset ++ ")"
  | .tooManyDigits count =>
    "Exceeds the limit (" ++ toString maxDigits ++
      " digits) for integer string conversion: value has "
      ++ toString count ++ " digits; use sys.set_int_max_str_digits() to increase the limit"

/-- Places a failure in the text it was met in. -/
def Failure.locate (text : List Char) : Failure → ReadError
  | .fault kind left =>
    let offset := text.length - left
    let before := text.take offset
    .malformed kind (before.count '\n' + 1) ((before.reverse.takeWhile (· ≠ '\n')).length + 1)
      offset
  | .tooManyDigits count => .tooManyDigits count

/-- Calls enough to read a text of this length. -/
def fuelFor (text : List Char) : Nat :=
  2 * text.length + 2

/-- Reads the document at the very start of a text, and returns what follows it. -/
def readLeading? (text : List Char) : Except ReadError (Json × List Char) :=
  (readValue (fuelFor text) text).mapError (Failure.locate text)

/-- Reads a text that holds one document. -/
def read? (text : List Char) : Except ReadError Json :=
  match text with
  | '\ufeff' :: _ => .error (.malformed .byteOrderMark 1 1 0)
  | _ =>
    match readValue (fuelFor text) (skipSpace text) with
    | .error failure => .error (failure.locate text)
    | .ok (document, rest) =>
      match skipSpace rest with
      | [] => .ok document
      | extra => .error ((Failure.fault .extraData extra.length).locate text)

end HornPlan.Json
