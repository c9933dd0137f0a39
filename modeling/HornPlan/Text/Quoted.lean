import HornPlan.Text.Printable

/-!
# Quoted names

Names are quoted in messages so that a reader sees every character.  The quote mark is the single
one, or the double one where the name holds a single and no double one; the mark and the backslash
are escaped, and so is every character that does not print.
-/

namespace HornPlan.Text

/-- The lower-case hexadecimal digits of `n`, padded with zeros to `width`. -/
def hex (width n : Nat) : List Char :=
  let digits := Nat.toDigits 16 n
  List.replicate (width - digits.length) '0' ++ digits

/-- The mark a name is quoted with. -/
def quoteMark (name : List Char) : Char :=
  if name.contains '\'' && !name.contains '"' then '"' else '\''

/-- How one character is written between two `mark`s. -/
def quoteChar (mark c : Char) : List Char :=
  if c = mark ∨ c = '\\' then ['\\', c]
  else if c = '\n' then ['\\', 'n']
  else if c = '\r' then ['\\', 'r']
  else if c = '\t' then ['\\', 't']
  else if isPrintable c then [c]
  else if c.toNat < 0x100 then '\\' :: 'x' :: hex 2 c.toNat
  else if c.toNat < 0x10000 then '\\' :: 'u' :: hex 4 c.toNat
  else '\\' :: 'U' :: hex 8 c.toNat

/-- A name between quote marks. -/
def quoted (name : String) : String :=
  let mark := quoteMark name.toList
  String.ofList (mark :: name.toList.flatMap (quoteChar mark) ++ [mark])

/-- A list of quoted names between brackets. -/
def quotedList (names : List String) : String :=
  "[" ++ ", ".intercalate (names.map quoted) ++ "]"

end HornPlan.Text
