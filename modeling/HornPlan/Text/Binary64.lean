/-!
# Double precision numbers

A decimal numeral stands for the nearest number `m · 2 ^ q` with at most 53 bits, a tie going to the
even `m`.  Such a number is written with the fewest digits that read back as itself, and with the
nearest of those to it.  Both directions are exact computations with natural numbers.
-/

namespace HornPlan.Text

/-- A double precision number: a signed multiple of a power of two, an infinity, or no number. -/
inductive Binary64
  | finite (negative : Bool) (mantissa : Nat) (exponent : Int)
  | infinite (negative : Bool)
  | undefined
  deriving DecidableEq

namespace Binary64

/-- Zero, with either sign. -/
def isZero : Binary64 → Bool
  | finite _ m _ => m == 0
  | _ => false

/-- The fraction `n / d` times `base ^ e`, as a fraction. -/
def scale (base : Nat) (e : Int) (n d : Nat) : Nat × Nat :=
  if e < 0 then (n, d * Nat.pow base e.natAbs) else (n * Nat.pow base e.natAbs, d)

/-- The nearest integer to `n / d`, a tie going to the even one. -/
def roundEven (n d : Nat) : Nat :=
  let floor := n / d
  let rest := 2 * (n % d)
  if rest < d then floor
  else if d < rest then floor + 1
  else floor + floor % 2

/-- The number nearest to the fraction `n / d`. -/
def nearest (negative : Bool) (n d : Nat) : Binary64 :=
  if n = 0 then .finite negative 0 0
  else
    let guess : Int := (n.log2 : Int) - d.log2 - 52
    let below := scale 2 (-guess) n d
    let exponent := max (if below.1 < Nat.pow 2 52 * below.2 then guess - 1 else guess) (-1074)
    let unit := scale 2 (-exponent) n d
    let mantissa := roundEven unit.1 unit.2
    let carried := mantissa = Nat.pow 2 53
    let exponent := if carried then exponent + 1 else exponent
    if 971 < exponent then .infinite negative
    else .finite negative (if carried then Nat.pow 2 52 else mantissa) exponent

/-- A finite number as a fraction with a positive denominator. -/
def fraction? : Binary64 → Option (Int × Nat)
  | finite negative m q =>
    let (n, d) := scale 2 q m 1
    some (if negative then -(n : Int) else n, d)
  | _ => none

/-- The number nearest to one more. -/
def succ (x : Binary64) : Binary64 :=
  match x.fraction? with
  | some (n, d) => nearest (n + d < 0) (n + d).natAbs d
  | none => x

/-- The number that `digits · 10 ^ e` stands for.  A decimal whose leading digit stands beyond the
range of the format is not multiplied out. -/
def ofDecimal (negative : Bool) (digits : Nat) (e : Int) : Binary64 :=
  let point : Int := (Nat.toDigits 10 digits).length + e
  if digits = 0 ∨ point < -400 then .finite negative 0 0
  else if 400 < point then .infinite negative
  else
    let fraction := scale 10 e digits 1
    nearest negative fraction.1 fraction.2

/-- The number of digits before the decimal point of `n / d`: the `p` with
`10 ^ (p - 1) ≤ n / d < 10 ^ p`. -/
def decimalPoint (n d : Nat) : Int :=
  let guess : Int := (Nat.toDigits 10 n).length - (Nat.toDigits 10 d).length
  let power := scale 10 guess 1 1
  if n * power.2 < d * power.1 then guess else guess + 1

/-- The multiple of `10 ^ grid` that reads back as `m · 2 ^ q`, the nearer one where two do, and the
even one where they are equally near. -/
def onGrid? (m : Nat) (q grid : Int) : Option Nat :=
  let atGrid (quarters : Nat) : Nat × Nat :=
    let binary := scale 2 (q - 2) quarters 1
    scale 10 (-grid) binary.1 binary.2
  -- the ends of the interval that rounds to the number, in quarters of its last place
  let value := atGrid (4 * m)
  let low := atGrid (if m = Nat.pow 2 52 ∧ -1074 < q then 4 * m - 1 else 4 * m - 2)
  let high := atGrid (4 * m + 2)
  let inside (c : Nat) : Bool :=
    if m % 2 = 0 then low.1 ≤ c * low.2 && c * high.2 ≤ high.1
    else low.1 < c * low.2 && c * high.2 < high.1
  let floor := value.1 / value.2
  match inside floor, inside (floor + 1) with
  | false, false => none
  | true, false => some floor
  | false, true => some (floor + 1)
  | true, true =>
    -- both neighbours read back: compare the remainder with one half
    let twice := 2 * (value.1 % value.2)
    if twice < value.2 ∨ (twice = value.2 ∧ floor % 2 = 0) then some floor else some (floor + 1)

/-- The shortest decimal `c · 10 ^ grid` for `m · 2 ^ q`, trying `tries` lengths from `digits`
on. -/
def shortest (m : Nat) (q : Int) (point : Int) : (digits tries : Nat) → Nat × Int
  | _, 0 => (m, 0)
  | digits, tries + 1 =>
    let grid := point - digits
    match onGrid? m q grid with
    | some c => (c, grid)
    | none => shortest m q point (digits + 1) tries

/-- Digits and the place of the decimal point as text: positional notation for numbers from `10⁻⁴`
up to `10¹⁶`, with at least one digit on either side of the point, and scientific notation with at
least two exponent digits beyond. -/
def layout (digits : List Char) (point : Int) : List Char :=
  if -4 < point ∧ point ≤ 16 then
    if point ≤ 0 then '0' :: '.' :: List.replicate point.natAbs '0' ++ digits
    else if digits.length ≤ point.natAbs then
      digits ++ List.replicate (point.natAbs - digits.length) '0' ++ ['.', '0']
    else digits.take point.natAbs ++ '.' :: digits.drop point.natAbs
  else
    let exponent := point - 1
    let size := Nat.toDigits 10 exponent.natAbs
    let fraction := if digits.length ≤ 1 then [] else '.' :: digits.drop 1
    digits.take 1 ++ fraction ++ ['e', if exponent < 0 then '-' else '+']
      ++ List.replicate (2 - size.length) '0' ++ size

/-- The text of a number. -/
def text : Binary64 → String
  | .undefined => "nan"
  | .infinite negative => if negative then "-inf" else "inf"
  | .finite negative m q =>
    let magnitude :=
      if m = 0 then ['0', '.', '0']
      else
        let fraction := scale 2 q m 1
        let (c, grid) := shortest m q (decimalPoint fraction.1 fraction.2) 1 17
        let digits := Nat.toDigits 10 c
        let kept := (digits.reverse.dropWhile (· = '0')).reverse
        layout kept (digits.length + grid)
    String.ofList (if negative then '-' :: magnitude else magnitude)

end Binary64

end HornPlan.Text
