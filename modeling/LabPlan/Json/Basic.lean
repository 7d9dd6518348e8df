/-! # JSON texts

A JSON text is read into a tree that keeps what is written: the digits of numbers, the members of
objects in order and with repetitions, and strings that hold half of a surrogate pair, which are no
text.  What a reader of the tree does not look at is thereby never refused for its meaning. -/

namespace LabPlan

/-- A number as it is written. -/
structure Numeral where
  negative : Bool
  /-- Digits before the point. -/
  whole : List Char
  /-- Digits after the point, if there is one. -/
  fraction : Option (List Char)
  /-- Whether the exponent is negative, and its digits. -/
  exponent : Option (Bool × List Char)
deriving DecidableEq, Repr

/-- A JSON tree.  A string is absent if it is no text. -/
inductive Json where
  | null
  | bool (b : Bool)
  | number (n : Numeral)
  | string (s : Option String)
  | array (items : List Json)
  | object (members : List (Option String × Json))
deriving Repr, Inhabited

namespace Json

def isSpace (c : Char) : Bool := c == ' ' || c == '\n' || c == '\t' || c == '\r'

def skipSpace (cs : List Char) : List Char := cs.dropWhile isSpace

def hexDigit? (c : Char) : Option Nat :=
  if '0' ≤ c ∧ c ≤ '9' then some (c.toNat - 48)
  else if 'a' ≤ c ∧ c ≤ 'f' then some (c.toNat - 87)
  else if 'A' ≤ c ∧ c ≤ 'F' then some (c.toNat - 55)
  else none

/-- The value of four digits in base sixteen. -/
def unit? (a b c d : Char) : Option Nat := do
  return (((← hexDigit? a) * 16 + (← hexDigit? b)) * 16 + (← hexDigit? c)) * 16 + (← hexDigit? d)

/-- The character that a backslash and this character stand for. -/
def escaped? : Char → Option Char
  | '"' => some '"'
  | '\\' => some '\\'
  | '/' => some '/'
  | 'b' => some '\x08'
  | 'f' => some '\x0c'
  | 'n' => some '\n'
  | 'r' => some '\r'
  | 't' => some '\t'
  | _ => none

/-- What has been read of a string. -/
structure Unfinished where
  /-- Characters, last first. -/
  acc : List Char
  /-- No half of a surrogate pair has been left alone. -/
  sound : Bool
  /-- The first half of a pair that was read last. -/
  half : Option Nat

namespace Unfinished

/-- One more character; it leaves a half alone. -/
def push (c : Char) (p : Unfinished) : Unfinished := ⟨c :: p.acc, p.sound && p.half.isNone, none⟩

/-- One more unit of sixteen bits. -/
def pushUnit (u : Nat) (p : Unfinished) : Unfinished :=
  if 0xd800 ≤ u ∧ u < 0xdc00 then ⟨p.acc, p.sound && p.half.isNone, some u⟩
  else if 0xdc00 ≤ u ∧ u < 0xe000 then
    match p.half with
    | some h => ⟨Char.ofNat ((h - 0xd800) * 0x400 + (u - 0xdc00) + 0x10000) :: p.acc, p.sound, none⟩
    | none => ⟨p.acc, false, none⟩
  else p.push (Char.ofNat u)

/-- The text, if it is one. -/
def close (p : Unfinished) : Option String :=
  if p.sound && p.half.isNone then some (String.ofList p.acc.reverse) else none

end Unfinished

/-- Read a string after its opening quote. -/
def readString (p : Unfinished) : List Char → Option (Option String × List Char)
  | [] => none
  | c :: cs =>
    if c == '"' then some (p.close, cs)
    else if c == '\\' then
      match cs with
      | 'u' :: x :: y :: z :: w :: rest =>
        match unit? x y z w with
        | some u => readString (p.pushUnit u) rest
        | none => none
      | e :: rest =>
        match escaped? e with
        | some d => readString (p.push d) rest
        | none => none
      | [] => none
    else if c.toNat < 0x20 then none
    else readString (p.push c) cs

/-- The digits at the front. -/
def digits (cs : List Char) : List Char × List Char :=
  (cs.takeWhile Char.isDigit, cs.dropWhile Char.isDigit)

/-- A number; the first of several digits before the point is not zero. -/
def readNumber (cs : List Char) : Option (Numeral × List Char) := do
  let (negative, cs) := match cs with
    | '-' :: cs => (true, cs)
    | cs => (false, cs)
  let (whole, cs) := digits cs
  if whole.isEmpty || (whole.head? == some '0' && 1 < whole.length) then none
  let (fraction, cs) ← match cs with
    | '.' :: cs =>
      let (ds, cs) := digits cs
      if ds.isEmpty then none else some (some ds, cs)
    | cs => some (none, cs)
  let (exponent, cs) ← match cs with
    | c :: rest =>
      if c == 'e' || c == 'E' then
        let (minus, rest) := match rest with
          | '-' :: rest => (true, rest)
          | '+' :: rest => (false, rest)
          | rest => (false, rest)
        let (ds, rest) := digits rest
        if ds.isEmpty then none else some (some (minus, ds), rest)
      else some (none, cs)
    | [] => some (none, cs)
  return (⟨negative, whole, fraction, exponent⟩, cs)

/-- A word that must stand at the front. -/
def afterWord? (word : String) (cs : List Char) : Option (List Char) :=
  if word.toList.isPrefixOf cs then some (cs.drop word.toList.length) else none

mutual

/-- Read a value after any space.  The first argument bounds the depth of calls. -/
def readValue : Nat → List Char → Option (Json × List Char)
  | 0, _ => none
  | n + 1, cs =>
    match skipSpace cs with
    | [] => none
    | c :: rest =>
      if c == '"' then (readString ⟨[], true, none⟩ rest).map fun r ↦ (.string r.1, r.2)
      else if c == '[' then
        match skipSpace rest with
        | ']' :: rest => some (.array [], rest)
        | rest => (readItems n rest).map fun r ↦ (.array r.1, r.2)
      else if c == '\x7b' then
        match skipSpace rest with
        | '\x7d' :: rest => some (.object [], rest)
        | rest => (readMembers n rest).map fun r ↦ (.object r.1, r.2)
      else if c == 'n' then (afterWord? "null" (c :: rest)).map (Json.null, ·)
      else if c == 't' then (afterWord? "true" (c :: rest)).map (Json.bool true, ·)
      else if c == 'f' then (afterWord? "false" (c :: rest)).map (Json.bool false, ·)
      else (readNumber (c :: rest)).map fun r ↦ (.number r.1, r.2)

/-- Read the items of an array that is not empty, up to its end. -/
def readItems : Nat → List Char → Option (List Json × List Char)
  | 0, _ => none
  | n + 1, cs => do
    let (item, rest) ← readValue n cs
    match skipSpace rest with
    | ',' :: rest =>
      let (items, rest) ← readItems n rest
      return (item :: items, rest)
    | ']' :: rest => return ([item], rest)
    | _ => none

/-- Read the members of an object that is not empty, up to its end. -/
def readMembers : Nat → List Char → Option (List (Option String × Json) × List Char)
  | 0, _ => none
  | n + 1, cs => do
    match skipSpace cs with
    | '"' :: rest =>
      let (key, rest) ← readString ⟨[], true, none⟩ rest
      match skipSpace rest with
      | ':' :: rest =>
        let (value, rest) ← readValue n rest
        match skipSpace rest with
        | ',' :: rest =>
          let (members, rest) ← readMembers n rest
          return ((key, value) :: members, rest)
        | '\x7d' :: rest => return ([(key, value)], rest)
        | _ => none
      | _ => none
    | _ => none

end

/-- Read a text that holds one value and nothing else. -/
def ofText? (text : String) : Option Json := do
  let cs := text.toList
  let (v, rest) ← readValue (cs.length + 1) cs
  if (skipSpace rest).isEmpty then return v else none

end Json

end LabPlan
