import LabPlan.Text.Blank

/-! # References

A string argument that begins with a dollar sign refers to a parameter (`$name`) or to an output of
a step (`$step.output`).  The parts of a reference are not empty and hold neither a dot nor a blank
character. -/

namespace LabPlan

/-- A reference to a parameter or a step, and to one of the step's outputs if a field is given. -/
structure Reference where
  name : String
  field : Option String
deriving DecidableEq, Repr, Inhabited

namespace Reference

/-- The characters of a part of a reference. -/
def isPart (cs : List Char) : Bool :=
  !cs.isEmpty && cs.all fun c ↦ c != '.' && !Text.isBlank c

/-- The characters of a reference as it is written. -/
def spelling (r : Reference) : List Char :=
  '$' :: r.name.toList ++
    match r.field with
    | some f => '.' :: f.toList
    | none => []

/-- The text of a reference. -/
def text (r : Reference) : String := String.ofList r.spelling

/-- A reference whose parts can be written. -/
def IsWritable (r : Reference) : Prop :=
  isPart r.name.toList = true ∧ ∀ f, r.field = some f → isPart f.toList = true

/-- What a string is, read as an argument. -/
inductive Reading where
  /-- No dollar sign in front: the string itself. -/
  | literal
  /-- A dollar sign, but no reference after it. -/
  | malformed
  | reference (r : Reference)
deriving DecidableEq, Repr

/-- The parts after the dollar sign: the first dot ends the name. -/
def ofParts? (cs : List Char) : Option Reference :=
  let name := cs.takeWhile (· != '.')
  match cs.dropWhile (· != '.') with
  | [] => if isPart name then some ⟨String.ofList name, none⟩ else none
  | _ :: field =>
    if isPart name && isPart field then
      some ⟨String.ofList name, some (String.ofList field)⟩
    else none

/-- Read a string. -/
def read (text : String) : Reading :=
  match text.toList with
  | '$' :: cs =>
    match ofParts? cs with
    | some r => .reference r
    | none => .malformed
  | _ => .literal

end Reference

end LabPlan
