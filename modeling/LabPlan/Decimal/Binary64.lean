/-! # Binary floating-point numbers of 64 bits

A number is its bit pattern: a sign, an eleven-bit exponent and a fifty-two-bit fraction.  The
arithmetic here is on exact fractions of natural numbers, rounded once to the nearest number with
ties to an even fraction, so nothing depends on the machine. -/

namespace LabPlan

/-- A double-precision number, told apart by its bits. -/
structure Binary64 where
  bits : UInt64
deriving DecidableEq, Repr, Inhabited

namespace Binary64

def infinity (negative : Bool) : Binary64 :=
  ⟨if negative then 0xfff0000000000000 else 0x7ff0000000000000⟩

/-- The only representative of "not a number". -/
def nan : Binary64 := ⟨0x7ff8000000000000⟩

def negative (x : Binary64) : Bool := x.bits ≥ 0x8000000000000000

def exponentField (x : Binary64) : Nat := (x.bits.toNat / Nat.pow 2 52) % 2048

def fractionField (x : Binary64) : Nat := x.bits.toNat % Nat.pow 2 52

def isNaN (x : Binary64) : Bool := x.exponentField == 2047 && x.fractionField != 0

def isInfinite (x : Binary64) : Bool := x.exponentField == 2047 && x.fractionField == 0

def isZero (x : Binary64) : Bool := x.exponentField == 0 && x.fractionField == 0

/-- The integer `m` of a finite magnitude `m * 2 ^ (e - 1075)`, where `e` is `scale x`. -/
def significand (x : Binary64) : Nat :=
  if x.exponentField == 0 then x.fractionField else x.fractionField + Nat.pow 2 52

/-- The exponent `e` of a finite magnitude `m * 2 ^ (e - 1075)`, at least one. -/
def scale (x : Binary64) : Nat := max x.exponentField 1

/-- A finite magnitude as an exact fraction. -/
def magnitude (x : Binary64) : Nat × Nat :=
  if 1075 ≤ x.scale then (x.significand * Nat.pow 2 (x.scale - 1075), 1)
  else (x.significand, Nat.pow 2 (1075 - x.scale))

/-- The quotient rounded to the nearest integer, ties to the even one. -/
def divideEven (num den : Nat) : Nat :=
  let q := num / den
  let r := 2 * (num % den)
  if r < den then q else if den < r then q + 1 else if q % 2 = 0 then q else q + 1

/-- The greatest `e` with `2 ^ e * den ≤ num`, for positive arguments. -/
def floorLog2 (num den : Nat) : Int :=
  let guess : Int := (Nat.log2 num : Int) - (Nat.log2 den : Int)
  if (Nat.pow 2 guess.toNat * den ≤ num * Nat.pow 2 (-guess).toNat : Bool) then guess else guess - 1

/-- The nearest number to `num / den`; from half a step beyond the greatest one on it is
infinite. -/
def ofRatio (negative : Bool) (num den : Nat) : Binary64 :=
  let sign : Nat := if negative then Nat.pow 2 63 else 0
  if num = 0 then ⟨UInt64.ofNat sign⟩
  else
    let q : Int := max (floorLog2 num den - 52) (-1074)
    let m := divideEven (num * Nat.pow 2 (-q).toNat) (den * Nat.pow 2 q.toNat)
    if m < Nat.pow 2 52 then ⟨UInt64.ofNat (sign + m)⟩
    else
      let field := (q + 1075).toNat * Nat.pow 2 52 + (m - Nat.pow 2 52)
      if field < 2047 * Nat.pow 2 52 then ⟨UInt64.ofNat (sign + field)⟩ else infinity negative

/-- The nearest number to `digits * 10 ^ exponent`.  Exponents far outside the range are settled by
the count of digits alone. -/
def ofDecimal (negative : Bool) (digits : Nat) (exponent : Int) : Binary64 :=
  let order : Int := exponent + (Nat.log2 digits : Int) / 3
  if digits = 0 then ofRatio negative 0 1
  else if 400 < exponent then infinity negative
  else if order < -400 then ofRatio negative 0 1
  else ofRatio negative (digits * Nat.pow 10 exponent.toNat) (Nat.pow 10 (-exponent).toNat)

/-- Equality of numbers: the two zeros are one, and "not a number" is itself. -/
def same (x y : Binary64) : Bool :=
  x.bits == y.bits || (x.isZero && y.isZero)

/-- The number with its sign chosen. -/
def withSign (negative : Bool) (x : Binary64) : Binary64 :=
  ⟨if negative then x.bits ||| 0x8000000000000000 else x.bits &&& 0x7fffffffffffffff⟩

/-- The rounded product of two finite numbers. -/
def multiply (x y : Binary64) : Binary64 :=
  let a := x.magnitude
  let b := y.magnitude
  ofRatio (x.negative != y.negative) (a.1 * b.1) (a.2 * b.2)

/-- The rounded quotient of two finite numbers, the second not zero. -/
def divide (x y : Binary64) : Binary64 :=
  let a := x.magnitude
  let b := y.magnitude
  ofRatio (x.negative != y.negative) (a.1 * b.2) (a.2 * b.1)

end Binary64

end LabPlan
