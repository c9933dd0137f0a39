import HornPlan.Text.Numeral

/-!
# Decimal numbers typed by a person

A number of seconds may have a sign, a fraction and an exponent, or be one of the words for infinity
and for no number.  Digits are written as in whole numbers.  To a limit that no run reaches it only
matters whether it leaves any time at all.
-/

namespace HornPlan.Text

/-- What is known of a number of seconds: whether it is zero or less, so that the time is over
before anything has been done. -/
structure Seconds where
  spent : Bool
  deriving DecidableEq

/-- The digits that continue a run of digits, each perhaps set off by one underscore, and what
follows. -/
def continuedDigits : List Char → List Nat × List Char
  | '_' :: c :: rest =>
    match decimalValue? c with
    | some d => ((continuedDigits rest).map (d :: ·) id)
    | none => ([], '_' :: c :: rest)
  | c :: rest =>
    match decimalValue? c with
    | some d => ((continuedDigits rest).map (d :: ·) id)
    | none => ([], c :: rest)
  | [] => ([], [])

/-- The digits at the start of a text, and what follows. -/
def leadingDigits : List Char → List Nat × List Char
  | [] => ([], [])
  | c :: rest =>
    match decimalValue? c with
    | some d => ((continuedDigits rest).map (d :: ·) id)
    | none => ([], c :: rest)

/-- An exponent that takes up a whole text, or nothing. -/
def isExponent : List Char → Bool
  | [] => true
  | c :: rest =>
    let unsigned :=
      match rest with
      | '-' :: digits => digits
      | '+' :: digits => digits
      | digits => digits
    (c = 'e' || c = 'E') && !(leadingDigits unsigned).1.isEmpty &&
    (leadingDigits unsigned).2.isEmpty

/-- The digits of a number without a sign: a whole part and a fraction, one of which has digits. -/
def magnitude? (text : List Char) : Option (List Nat) :=
  let (whole, rest) := leadingDigits text
  let (fraction, rest) :=
    match rest with
    | '.' :: rest => leadingDigits rest
    | rest => ([], rest)
  if (whole ++ fraction).isEmpty || !isExponent rest then none else some (whole ++ fraction)

/-- The words for infinity and for no number, in lower case. -/
def isInfinityWord (text : List Char) : Bool :=
  ["inf".toList, "infinity".toList].contains (text.map Char.toLower)

/-- Reads a number of seconds. -/
def seconds? (text : String) : Option Seconds :=
  let (negative, unsigned) :=
    match trimAll isSpace text.toList with
    | '-' :: rest => (true, rest)
    | '+' :: rest => (false, rest)
    | rest => (false, rest)
  if isInfinityWord unsigned then some ⟨negative⟩
  else if unsigned.map Char.toLower = "nan".toList then some ⟨false⟩
  else (magnitude? unsigned).map fun digits => ⟨negative || digits.all (· = 0)⟩

end HornPlan.Text
