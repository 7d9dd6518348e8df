import LabPlan.Value.Basic
import LabPlan.Yaml.Node

/-! # What a scalar means

A plain scalar is a null, a truth value, an integer, a floating-point number or a string, tried in
that order.  Integers have 64 bits; one that has up to 128 bits but not 64 is refused, and a longer
one is a floating-point number. -/

namespace LabPlan.Yaml

namespace Resolution

def isNullWord (s : List Char) : Bool :=
  ["null", "Null", "NULL", "~"].any (·.toList == s)

def bool? (s : List Char) : Option Bool :=
  if ["true", "True", "TRUE"].any (·.toList == s) then some true
  else if ["false", "False", "FALSE"].any (·.toList == s) then some false
  else none

/-- The value of a digit of a base up to sixteen. -/
def digit? (base : Nat) (c : Char) : Option Nat :=
  let d :=
    if '0' ≤ c ∧ c ≤ '9' then c.toNat - 48
    else if 'a' ≤ c ∧ c ≤ 'f' then c.toNat - 87
    else if 'A' ≤ c ∧ c ≤ 'F' then c.toNat - 55
    else 16
  if d < base then some d else none

/-- A number written with digits only, at least one. -/
def natural? (base : Nat) : List Char → Option Nat
  | [] => none
  | cs => cs.foldlM (fun n c ↦ (digit? base c).map (n * base + ·)) 0

/-- Several digits of which the first is zero make no number. -/
def hasLeadingZero (s : List Char) : Bool :=
  let ds := match s with
    | '-' :: cs | '+' :: cs => cs
    | cs => cs
  match ds with
  | '0' :: c :: cs => (c :: cs).all Char.isDigit
  | _ => false

/-- A number in base sixteen, eight or two after its mark, else in base ten. -/
def based? (s : List Char) : Option Nat :=
  let marked := match s with
    | '0' :: 'x' :: cs => natural? 16 cs
    | '0' :: 'o' :: cs => natural? 8 cs
    | '0' :: 'b' :: cs => natural? 2 cs
    | _ => none
  match marked with
  | some n => some n
  | none => if hasLeadingZero s then none else natural? 10 s

/-- An integer of any size: its sign and its magnitude. -/
def integer? : List Char → Option (Bool × Nat)
  | '-' :: cs => (based? cs).map (true, ·)
  | '+' :: cs => (based? cs).map (false, ·)
  | cs => (based? cs).map (false, ·)

/-- How an integer fits. -/
inductive Width where
  | fits (i : Int)
  /-- Too long for 64 bits, but not for 128. -/
  | wide
  /-- Too long for 128 bits. -/
  | tooLong

def width (negative : Bool) (n : Nat) : Width :=
  if negative then
    if n ≤ Nat.pow 2 63 then .fits (-n) else if n ≤ Nat.pow 2 127 then .wide else .tooLong
  else if n < Nat.pow 2 64 then .fits n else if n < Nat.pow 2 128 then .wide else .tooLong

/-- The digits at the front, with what follows. -/
def digits (s : List Char) : List Char × List Char :=
  (s.takeWhile Char.isDigit, s.dropWhile Char.isDigit)

/-- The exponent of a decimal, zero if there is none; nothing may follow it. -/
def exponent? (s : List Char) : Option Int :=
  match s with
  | [] => some 0
  | c :: cs =>
    if c == 'e' || c == 'E' then
      match cs with
      | '-' :: ds => (natural? 10 ds).map fun n ↦ -(n : Int)
      | '+' :: ds => (natural? 10 ds).map fun n ↦ (n : Int)
      | ds => (natural? 10 ds).map fun n ↦ (n : Int)
    else none

/-- An unsigned decimal: digits with a point somewhere or nowhere, at least one digit, and an
exponent if wanted. -/
def decimal? (negative : Bool) (s : List Char) : Option Binary64 := do
  let (whole, rest) := digits s
  let (fraction, rest) := match rest with
    | '.' :: cs => digits cs
    | rest => ([], rest)
  if whole.isEmpty && fraction.isEmpty then none
  let e ← exponent? rest
  let n ← natural? 10 (whole ++ fraction)
  let x := Binary64.ofDecimal negative n (e - fraction.length)
  if x.isInfinite then none else some x

def isInfinityWord (s : List Char) : Bool :=
  [".inf", ".Inf", ".INF"].any (·.toList == s)

def isNanWord (s : List Char) : Bool :=
  [".nan", ".NaN", ".NAN"].any (·.toList == s)

/-- A floating-point number; one too great for the format is none. -/
def float? (s : List Char) : Option Binary64 :=
  if isNanWord s then some Binary64.nan
  else
    let (negative, cs) := match s with
      | '-' :: cs => (true, cs)
      | '+' :: cs => (false, cs)
      | cs => (false, cs)
    if isInfinityWord cs then some (Binary64.infinity negative) else decimal? negative cs

/-- The value of a plain scalar; `none` if it is an integer that does not fit. -/
def plain (text : String) : Option Value :=
  let s := text.toList
  if s.isEmpty || isNullWord s then some .null
  else
    match bool? s with
    | some b => some (.bool b)
    | none =>
      match (integer? s).map fun i ↦ width i.1 i.2 with
      | some (.fits i) => some (.int i)
      | some .wide => none
      | _ =>
        if hasLeadingZero s then some (.string text)
        else
          match float? s with
          | some x => some (.float x)
          | none => some (.string text)

/-- The value of a scalar under a tag; `none` if it does not have the form that the tag asks for. -/
def scalar (tag : Tag) (isPlain : Bool) (text : String) : Option Value :=
  let s := text.toList
  match tag with
  | .bool => (bool? s).map .bool
  | .int =>
    match (integer? s).map fun i ↦ width i.1 i.2 with
    | some (.fits i) => some (.int i)
    | _ => none
  | .float => (float? s).map .float
  | .null => if isNullWord s then some .null else none
  | .global => some (.string text)
  | .absent | .named _ => if isPlain then plain text else some (.string text)

end Resolution

end LabPlan.Yaml
