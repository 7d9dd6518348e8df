import LabPlan.Json.Basic
import LabPlan.Value.Basic

/-! # Numbers of JSON texts

A number without point and exponent is an integer if it has 64 bits, and zero with a sign is not.
Any other number is computed in floating point: its digits, as far as 64 bits hold them, are scaled
by a power of ten, which is one rounded operation up to `10 ^ 308` and several beyond. -/

namespace LabPlan.Numeral

/-- A coefficient with the digits that did not fit. -/
structure Coefficient where
  value : Nat
  /-- How many digits were taken. -/
  taken : Nat
  /-- How many were left. -/
  left : Nat
deriving Repr

/-- Append digits as long as the result is below a limit. -/
def appendDigits (limit value taken : Nat) : List Char → Coefficient
  | [] => ⟨value, taken, 0⟩
  | c :: cs =>
    let next := value * 10 + (c.toNat - 48)
    if next < limit then appendDigits limit next (taken + 1) cs
    else ⟨value, taken, (c :: cs).length⟩

/-- The number `x * 10 ^ exponent` in floating point; `none` if it is too great. -/
def scale (x : Binary64) (exponent : Int) : Option Binary64 :=
  if 308 < exponent then if x.isZero then some x else none
  else if 0 ≤ exponent then
    let y := x.multiply (.ofDecimal false 1 exponent)
    if y.isInfinite then none else some y
  else if -308 ≤ exponent then some (x.divide (.ofDecimal false 1 (-exponent)))
  else if x.isZero then some x
  else scale (x.divide (.ofDecimal false 1 308)) (exponent + 308)
termination_by (-exponent).toNat

/-- The greatest exponent that is computed with. -/
def maxExponent : Nat := Nat.pow 2 31 - 1

/-- The value of a number that is no integer; `none` if it is too great. -/
def float? (n : Numeral) : Option Binary64 :=
  let whole := appendDigits (Nat.pow 2 64) 0 0 n.whole
  let all := appendDigits (Nat.pow 2 64) whole.value 0 (n.fraction.getD [])
  let start : Int := whole.left - all.taken
  let zero := Binary64.ofRatio false 0 1
  let x := match n.exponent with
    | none => scale (.ofRatio false all.value 1) start
    | some (minus, ds) =>
      let e := appendDigits (maxExponent + 1) 0 0 ds
      if 0 < e.left then if all.value != 0 && !minus then none else some zero
      else scale (.ofRatio false all.value 1) (if minus then start - e.value else start + e.value)
  x.map (·.withSign n.negative)

/-- The value of a number, if it is not too great. -/
def value? (n : Numeral) : Option Value :=
  let whole := appendDigits (Nat.pow 2 64) 0 0 n.whole
  match n.fraction, n.exponent with
  | none, none =>
    if whole.left == 0 && !n.negative then some (.int whole.value)
    else if whole.left == 0 && 0 < whole.value && whole.value ≤ Nat.pow 2 63 then
      some (.int (-whole.value))
    else n.float?.map .float
  | _, _ => n.float?.map .float

end LabPlan.Numeral
