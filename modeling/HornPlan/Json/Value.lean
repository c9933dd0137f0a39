import HornPlan.Json.Basic

/-!
# The values of documents

Two documents may be written differently and have the same value.  A number counts by its size, with
a fraction or without; a truth value counts as zero or one; the order of the fields of an object
does not matter.  A text is never the same as a number.

The code of a document is a list of numbers that says what its value is: documents of one value have
one code.  Numbers, texts and lists are ordered as well, each kind for itself.
-/

namespace HornPlan

/-! ## Codes that end by themselves -/

/-- A text as the list of its length and its code points. -/
def textCode (text : String) : List Nat :=
  text.length :: text.toList.map Char.toNat

/-- A whole number as its sign and its size. -/
def wholeCode (n : Int) : List Nat :=
  [if n < 0 then 1 else 0, n.natAbs]

/-- A code behind its length. -/
def enclose (code : List Nat) : List Nat :=
  code.length :: code

theorem textCode_append_inj {s t : String} {v w : List Nat}
    (h : textCode s ++ v = textCode t ++ w) : s = t ∧ v = w := by
  obtain ⟨hlength, hrest⟩ := List.cons.inj h
  obtain ⟨hchars, hvw⟩ := List.append_inj hrest (by
    rw [List.length_map, List.length_map, String.length_toList, String.length_toList]
    exact hlength)
  have hinj : ∀ a b : Char, a.toNat = b.toNat → a = b :=
    fun a b hab => Char.ext (UInt32.toNat_inj.1 hab)
  exact ⟨String.toList_inj.1 (List.map_inj_right hinj |>.1 hchars), hvw⟩

theorem enclose_append_inj {c d v w : List Nat} (h : enclose c ++ v = enclose d ++ w) :
    c = d ∧ v = w := by
  obtain ⟨hlength, hrest⟩ := List.cons.inj h
  exact List.append_inj hrest hlength

/-! ## Numbers -/

/-- The size of a number, if it is one. -/
inductive Quantity
  | rational (q : Rat)
  | infinite (negative : Bool)
  | undefined
  deriving DecidableEq

/-- A quantity as a list of numbers. -/
def Quantity.code : Quantity → List Nat
  | rational q => 0 :: wholeCode q.num ++ [q.den]
  | infinite negative => [1, negative.toNat]
  | undefined => [2]

/-- The size of a double precision number. -/
def Quantity.ofReal : Text.Binary64 → Quantity
  | .infinite negative => infinite negative
  | x => x.fraction?.elim undefined fun (n, d) => rational (mkRat n d)

/-- How one value stands to another.  What is no number stands in no order to any other. -/
inductive Comparison
  | less
  | equal
  | greater
  | unordered
  deriving DecidableEq

/-- The comparison that an order is. -/
def Comparison.ofOrdering : Ordering → Comparison
  | .lt => less
  | .eq => equal
  | .gt => greater

/-- How one quantity stands to another. -/
def Quantity.compare : Quantity → Quantity → Comparison
  | undefined, _ | _, undefined => .unordered
  | rational p, rational q => if p < q then .less else if p = q then .equal else .greater
  | infinite a, infinite b => if a = b then .equal else if a then .less else .greater
  | infinite negative, rational _ => if negative then .less else .greater
  | rational _, infinite negative => if negative then .greater else .less

namespace Json

/-- The size of a number or a truth value. -/
def quantity? : Json → Option Quantity
  | .bool b => some (.rational b.toNat)
  | .int n => some (.rational n)
  | .real x => some (.ofReal x)
  | _ => none

/-! ## Codes -/

mutual
/-- The value of a document as a list of numbers: a tag for its kind and what it consists of, the
fields of an object in the order of their names. -/
def code : Json → List Nat
  | .null => [0]
  | .bool b => 1 :: (Quantity.rational b.toNat).code
  | .int n => 1 :: (Quantity.rational n).code
  | .real x => 1 :: (Quantity.ofReal x).code
  | .str s => 2 :: textCode s
  | .arr items => 3 :: (codeItems items).flatMap enclose
  | .obj fields =>
    4 :: ((codeFields fields).mergeSort fun a b => decide (a.1 ≤ b.1)).flatMap fun field =>
      textCode field.1 ++ enclose field.2
def codeItems : List Json → List (List Nat)
  | [] => []
  | item :: rest => code item :: codeItems rest
def codeFields : List (String × Json) → List (String × List Nat)
  | [] => []
  | (name, value) :: rest => (name, code value) :: codeFields rest
end

/-- Two documents have the same value. -/
def same (a b : Json) : Bool :=
  a.code == b.code

/-- Something can be looked up by a document: by anything but a list and an object. -/
def isIndexable : Json → Bool
  | .arr _ => false
  | .obj _ => false
  | _ => true

/-! ## Order -/

mutual
/-- How one document stands to another.  Numbers are compared with numbers, texts with texts by
their code points, and lists with lists by the first items that differ; nothing else can be
compared. -/
def compare? : Json → Json → Option Comparison
  | .str s, .str t => some (.ofOrdering (compare s t))
  | .arr items, .arr others => compareItems? items others
  | a, b =>
    match a.quantity?, b.quantity? with
    | some p, some q => some (p.compare q)
    | _, _ => none
def compareItems? : List Json → List Json → Option Comparison
  | [], [] => some .equal
  | [], _ :: _ => some .less
  | _ :: _, [] => some .greater
  | item :: items, other :: others =>
    if item.same other then compareItems? items others else compare? item other
end

end Json

end HornPlan
