import HornPlan.Text.Blank

/-!
# Integers typed by a person

A whole number may be surrounded by white space, carry a sign, and separate groups of digits by
single underscores.  The digits are those of any decimal script.
-/

namespace HornPlan.Text

/-- The zeros of the decimal scripts of Unicode 14; the digits one to nine follow each of them. -/
def decimalZeros : List Nat :=
  [0x30, 0x660, 0x6f0, 0x7c0, 0x966, 0x9e6, 0xa66, 0xae6, 0xb66, 0xbe6, 0xc66, 0xce6, 0xd66,
   0xde6, 0xe50, 0xed0, 0xf20, 0x1040, 0x1090, 0x17e0, 0x1810, 0x1946, 0x19d0, 0x1a80, 0x1a90,
   0x1b50, 0x1bb0, 0x1c40, 0x1c50, 0xa620, 0xa8d0, 0xa900, 0xa9d0, 0xa9f0, 0xaa50, 0xabf0,
   0xff10, 0x104a0, 0x10d30, 0x11066, 0x110f0, 0x11136, 0x111d0, 0x112f0, 0x11450, 0x114d0,
   0x11650, 0x116c0, 0x11730, 0x118e0, 0x11950, 0x11c50, 0x11d50, 0x11da0, 0x16a60, 0x16ac0,
   0x16b50, 0x1d7ce, 0x1d7d8, 0x1d7e2, 0x1d7ec, 0x1d7f6, 0x1e140, 0x1e2f0, 0x1e950, 0x1fbf0]

/-- The value of a decimal digit in any script. -/
def decimalValue? (c : Char) : Option Nat :=
  (decimalZeros.find? fun start => start ≤ c.toNat && c.toNat < start + 10).map (c.toNat - ·)

/-- The most digits a whole number may have. -/
def maxDigits : Nat := 4300

/-- Reads digits after a first one: each may be set off by one underscore. -/
def moreDigits? : List Char → List Nat → Option (List Nat)
  | [], digits => some digits
  | '_' :: c :: rest, digits => (decimalValue? c).bind fun d => moreDigits? rest (digits ++ [d])
  | c :: rest, digits => (decimalValue? c).bind fun d => moreDigits? rest (digits ++ [d])

/-- Reads a nonempty run of digits as a natural number. -/
def digits? : List Char → Option Nat
  | [] => none
  | c :: rest =>
    match (decimalValue? c).bind fun d => moreDigits? rest [d] with
    | none => none
    | some digits =>
      if digits.length ≤ maxDigits then some (digits.foldl (fun n d => 10 * n + d) 0) else none

/-- Reads a whole number with an optional sign. -/
def integer? (text : String) : Option Int :=
  match trimAll isSpace text.toList with
  | '-' :: rest => (digits? rest).map fun n => -(n : Int)
  | '+' :: rest => (digits? rest).map fun n => (n : Int)
  | rest => (digits? rest).map fun n => (n : Int)

end HornPlan.Text
