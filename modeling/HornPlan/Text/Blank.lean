import HornPlan.Text.CodePoints

/-!
# Blanks

White space is what Unicode calls so.  Blanks are white space and the four information separators of
ASCII; `trim` removes them from both ends of a text.
-/

namespace HornPlan.Text

/-- The code points of white space. -/
def spaceRuns : List Run :=
  [⟨0x9, 0xd, 1⟩, ⟨0x20, 0x20, 1⟩, ⟨0x85, 0x85, 1⟩, ⟨0xa0, 0xa0, 1⟩, ⟨0x1680, 0x1680, 1⟩,
   ⟨0x2000, 0x200a, 1⟩, ⟨0x2028, 0x2029, 1⟩, ⟨0x202f, 0x202f, 1⟩, ⟨0x205f, 0x205f, 1⟩,
   ⟨0x3000, 0x3000, 1⟩]

/-- A character of white space. -/
def isSpace (c : Char) : Bool :=
  inRuns spaceRuns c

/-- White space or an information separator. -/
def isBlank (c : Char) : Bool :=
  isSpace c || inRuns [⟨0x1c, 0x1f, 1⟩] c

/-- The text without the characters of a kind at its two ends. -/
def trimAll (kind : Char → Bool) (text : List Char) : List Char :=
  ((text.dropWhile kind).reverse.dropWhile kind).reverse

/-- The text without the blanks at its two ends. -/
def trim (text : List Char) : List Char :=
  trimAll isBlank text

end HornPlan.Text
