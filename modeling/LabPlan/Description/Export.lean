import LabPlan.Decimal.Shortest
import LabPlan.Description.Basic
import LabPlan.Json.Basic

/-! # Descriptions as JSON

The interchange form of a description.  An argument says which kind it is beside what it holds, and
a map keeps its entries as pairs. -/

namespace LabPlan

namespace Json

/-- A text. -/
def ofString (s : String) : Json := .string (some s)

/-- A text, or null. -/
def ofOption (s : Option String) : Json :=
  match s with
  | some s => ofString s
  | none => .null

/-- An object of named members. -/
def record (members : List (String × Json)) : Json :=
  .object (members.map fun m ↦ (some m.1, m.2))

def ofInt (i : Int) : Json := .number ⟨i < 0, Nat.toDigits 10 i.natAbs, none, none⟩

/-- A finite number by its shortest digits; JSON has no other numbers. -/
def ofBinary64 (x : Binary64) : Json :=
  if x.isNaN || x.isInfinite then .null
  else
    let d : Decimal.Scaled := if x.isZero then ⟨0, 0⟩ else Decimal.shortest x
    .number ⟨x.negative, Nat.toDigits 10 d.digits, none,
      some (d.exponent < 0, Nat.toDigits 10 d.exponent.natAbs)⟩

mutual

/-- A value without tags; keys are written by their text. -/
def ofValue : Value → Json
  | .null => .null
  | .bool b => .bool b
  | .int i => ofInt i
  | .float x => ofBinary64 x
  | .string s => ofString s
  | .sequence vs => .array (ofValues vs)
  | .mapping es => .object (ofEntries es)
  | .tagged _ v => ofValue v
termination_by structural v => v

def ofValues : List Value → List Json
  | [] => []
  | v :: vs => ofValue v :: ofValues vs
termination_by structural vs => vs

def ofEntries : List (Value × Value) → List (Option String × Json)
  | [] => []
  | e :: es => ofEntry e :: ofEntries es
termination_by structural es => es

def ofEntry : Value × Value → Option String × Json
  | (k, v) => (k.text?, ofValue v)
termination_by structural e => e

end

end Json

namespace Argument

/-- An argument's kind with what it holds. -/
def tagged (kind : String) (content : Json) : Json :=
  .record [("kind", .ofString kind), ("value", content)]

def referenceJson (r : Reference) : Json :=
  .record [("name", .ofString r.name), ("field", .ofOption r.field)]

mutual

def toJson : Argument → Json
  | literal v => tagged "literal" (.ofValue v)
  | reference r => tagged "reference" (referenceJson r)
  | list items => tagged "list" (.array (toJsonAll items))
  | map entries => tagged "map" (.array (toJsonEach entries))
termination_by structural a => a

def toJsonAll : List Argument → List Json
  | [] => []
  | a :: as => toJson a :: toJsonAll as
termination_by structural as => as

def toJsonEach : List (Value × Argument) → List Json
  | [] => []
  | e :: es => toJsonEntry e :: toJsonEach es
termination_by structural es => es

def toJsonEntry : Value × Argument → Json
  | (k, a) => .array [.ofValue k, toJson a]
termination_by structural e => e

end

end Argument

/-- A parameter; a type is written only if there is one. -/
def Parameter.toJson (p : Parameter) : Json :=
  let type := match p.typeName with
    | some t => [("type_name", Json.ofString t)]
    | none => []
  .record ([("name", .ofString p.name), ("default", .ofValue p.default)] ++ type)

def TaskDecl.toJson (t : TaskDecl) : Json :=
  .record [("name", .ofString t.name), ("plugin", .ofString t.plugin),
    ("outputs", .array (t.outputs.map .ofString))]

def Step.toJson (s : Step) : Json :=
  .record [("name", .ofString s.name), ("task", .ofString s.task),
    ("args", .array (s.args.map Argument.toJson)),
    ("kwargs", .array (s.kwargs.map fun k ↦ .array [.ofString k.1, k.2.toJson])),
    ("dependencies", .array (s.dependencies.map .ofString))]

/-- A description in its interchange form. -/
def Description.toJson (d : Description) : Json :=
  .record [("parameters", .array (d.parameters.map Parameter.toJson)),
    ("tasks", .array (d.tasks.map TaskDecl.toJson)),
    ("steps", .array (d.steps.map Step.toJson))]

end LabPlan
