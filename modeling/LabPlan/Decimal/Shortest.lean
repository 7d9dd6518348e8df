import LabPlan.Decimal.Binary64

/-! # Shortest decimals

The decimal text of a finite number is the one with the fewest digits among those that read back
as the same number, and the nearest of these to the exact value.  The reals that read back form an
interval around the value, its ends included when the significand is even.  For one digit, two
digits and so on the two neighbours of the value on the grid of that many digits are tried. -/

namespace LabPlan.Decimal

/-- A positive decimal `digits * 10 ^ exponent`. -/
structure Scaled where
  digits : Nat
  exponent : Int
deriving DecidableEq, Repr, Inhabited

/-- The reals around a positive number that round to it, over the common denominator `den`. -/
structure Interval where
  lower : Nat
  value : Nat
  upper : Nat
  den : Nat
  closed : Bool
deriving Repr

/-- The interval of a positive finite number.  Below a power of two the gap is half as wide. -/
def Interval.of (x : Binary64) : Interval :=
  let m := x.significand
  let low := if m == Nat.pow 2 52 && 1 < x.scale then 4 * m - 1 else 4 * m - 2
  if 1077 ≤ x.scale then
    let f := Nat.pow 2 (x.scale - 1077)
    ⟨low * f, 4 * m * f, (4 * m + 2) * f, 1, m % 2 == 0⟩
  else ⟨low, 4 * m, 4 * m + 2, Nat.pow 2 (1077 - x.scale), m % 2 == 0⟩

/-- The decimal lies in the interval. -/
def Interval.holds (i : Interval) (d : Scaled) : Bool :=
  let p := d.digits * Nat.pow 10 d.exponent.toNat * i.den
  let s := Nat.pow 10 (-d.exponent).toNat
  if i.closed then i.lower * s ≤ p && p ≤ i.upper * s else i.lower * s < p && p < i.upper * s

/-- The neighbour of the value on the grid of multiples of `10 ^ exponent` that lies in the
interval, the nearer one of two and the even one of two equally near. -/
def Interval.onGrid? (i : Interval) (exponent : Int) : Option Scaled :=
  let num := i.value * Nat.pow 10 (-exponent).toNat
  let den := i.den * Nat.pow 10 exponent.toNat
  let below : Scaled := ⟨num / den, exponent⟩
  let above : Scaled := ⟨num / den + 1, exponent⟩
  let nearest : Scaled := ⟨Binary64.divideEven num den, exponent⟩
  match i.holds below && below.digits != 0, i.holds above with
  | true, true => some nearest
  | true, false => some below
  | false, true => some above
  | false, false => none

/-- The first of the finer and finer grids with a decimal in the interval. -/
def Interval.search (i : Interval) : Nat → Int → Scaled
  | 0, exponent =>
    ⟨i.value * Nat.pow 10 (-exponent).toNat / (i.den * Nat.pow 10 exponent.toNat), exponent⟩
  | n + 1, exponent =>
    match i.onGrid? exponent with
    | some d => d
    | none => i.search n (exponent - 1)

/-- The decimal without zeros at its end. -/
def Scaled.strip : Nat → Scaled → Scaled
  | 0, d => d
  | n + 1, d =>
    if d.digits != 0 && d.digits % 10 == 0 then strip n ⟨d.digits / 10, d.exponent + 1⟩ else d

/-- The shortest decimal of a positive finite number.  The first grid is coarser than the number
itself, and seventeen digits always suffice. -/
def shortest (x : Binary64) : Scaled :=
  let i := Interval.of x
  let order : Int := ((Nat.log2 i.value : Int) - (Nat.log2 i.den : Int)) * 1233 / 4096 + 2
  (i.search 22 order).strip 22

/-- How the digits of a number are laid out. -/
structure Layout where
  /-- Least number of digits before the point, negative when zeros follow it, written plainly. -/
  leastPlain : Int
  /-- Greatest number of digits before the point written plainly. -/
  greatestPlain : Int

/-- Numbers in messages are plain from `0.00001` to below `10 ^ 16`. -/
def messages : Layout := ⟨-4, 16⟩

/-- A positive decimal laid out; a whole number written plainly ends in `.0`. -/
def Layout.text (layout : Layout) (d : Scaled) : String :=
  let ds := Nat.toDigits 10 d.digits
  let before : Int := ds.length + d.exponent
  if 0 ≤ d.exponent ∧ before ≤ layout.greatestPlain then
    String.ofList (ds ++ List.replicate d.exponent.toNat '0' ++ ['.', '0'])
  else if 0 < before ∧ before ≤ layout.greatestPlain then
    String.ofList (ds.take before.toNat ++ '.' :: ds.drop before.toNat)
  else if layout.leastPlain ≤ before ∧ before ≤ 0 then
    String.ofList ('0' :: '.' :: List.replicate (-before).toNat '0' ++ ds)
  else
    let e := toString (before - 1)
    match ds with
    | [] => "0.0"
    | [c] => String.ofList (c :: 'e' :: e.toList)
    | c :: cs => String.ofList (c :: '.' :: cs ++ 'e' :: e.toList)

/-- The text of any number in a message. -/
def text (x : Binary64) : String :=
  let sign := if x.negative then "-" else ""
  if x.isNaN then ".nan"
  else if x.isInfinite then sign ++ ".inf"
  else if x.isZero then sign ++ "0.0"
  else sign ++ messages.text (shortest x)

end LabPlan.Decimal
