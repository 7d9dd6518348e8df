import LabPlan.Json.Number
import LabPlan.Validation

/-! # Entrypoints

An entrypoint is a graph of steps in YAML, with the tasks and parameters that it may use.  It is
requested by a JSON text, and checked as the description that these parts make up. -/

namespace LabPlan

namespace Json

/-- Put a member where its name belongs; a later one replaces an earlier one. -/
def insertSorted (name : String) (v : Value) : Entries → Entries
  | [] => [(.string name, v)]
  | (.string s, w) :: es =>
    if s == name then (.string name, v) :: es
    else if name < s then (.string name, v) :: (.string s, w) :: es
    else (.string s, w) :: insertSorted name v es
  | e :: es => e :: insertSorted name v es

mutual

/-- A tree as a value, with `depth` levels of collections left.  Members are put in order. -/
def value? (depth : Nat) : Json → Option Value
  | null => some .null
  | bool b => some (.bool b)
  | number n => n.value?
  | string s => s.map .string
  | array items => if depth = 0 then none else (values? (depth - 1) items).map .sequence
  | object members => if depth = 0 then none else (entries? (depth - 1) [] members).map .mapping
termination_by structural j => j

def values? (depth : Nat) : List Json → Option (List Value)
  | [] => some []
  | j :: js =>
    match value? depth j with
    | some v => (values? depth js).map (v :: ·)
    | none => none
termination_by structural js => js

def entries? (depth : Nat) (done : Entries) : List (Option String × Json) → Option Entries
  | [] => some done
  | m :: ms =>
    match member? depth m with
    | some (name, v) => entries? depth (insertSorted name v done) ms
    | none => none
termination_by structural ms => ms

def member? (depth : Nat) : Option String × Json → Option (String × Value)
  | (some name, j) => (value? depth j).map (name, ·)
  | (none, _) => none
termination_by structural m => m

end

/-- The fields of a record in order: an array that may stop early, or an object whose other members
are ignored.  A field must not come twice. -/
def fields? (names : List String) : Json → Option (List (Option Json))
  | array items =>
    if names.length < items.length then none
    else some ((items.map some) ++ List.replicate (names.length - items.length) none)
  | object members =>
    if members.any (·.1.isNone) then none
    else
      names.mapM fun name ↦
        match members.filter fun m ↦ m.1 == some name with
        | [] => some none
        | [m] => some (some m.2)
        | _ => none
  | _ => none

/-- A string. -/
def text? : Json → Option String
  | string s => s
  | _ => none

/-- A string, or nothing for a null. -/
def optionalText? : Json → Option (Option String)
  | null => some none
  | string (some s) => some (some s)
  | _ => none

end Json

/-- A parameter of an entrypoint. -/
structure EntrypointParameter where
  name : String
  default : Option Value
  typeName : Option String
deriving Repr

/-- A request to check an entrypoint. -/
structure EntrypointRequest where
  graph : String
  tasks : Entries
  parameters : List EntrypointParameter
deriving Repr

/-- How deep the collections of a request may nest. -/
def requestDepth : Nat := 127

namespace EntrypointParameter

/-- Read a parameter that stands in the list of parameters; a default of null is none. -/
def ofJson? (j : Json) : Option EntrypointParameter := do
  let depth := requestDepth - 3
  match ← j.fields? ["name", "default_value", "parameter_type"] with
  | [name, default, type] =>
    let name ← name.bind Json.text?
    let default ← match default with
      | none | some .null => some none
      | some d => (d.value? depth).map some
    let type ← match type with
      | none => some none
      | some t => t.optionalText?
    return ⟨name, default, type⟩
  | _ => none

/-- The parameter as it is specified in a document. -/
def spec (p : EntrypointParameter) : Value :=
  let default := match p.default with
    | some v => [(Value.string "default", v)]
    | none => []
  let type := match p.typeName with
    | some t => [(Value.string "type", Value.string t)]
    | none => []
  .mapping (default ++ type)

end EntrypointParameter

namespace EntrypointRequest

/-- Read a request. -/
def ofJson? (j : Json) : Option EntrypointRequest := do
  match ← j.fields? ["task_graph", "tasks", "entrypoint_parameters"] with
  | [graph, tasks, parameters] =>
    let graph ← graph.bind Json.text?
    let tasks ← match tasks with
      | none => some []
      | some (.object members) => Json.entries? (requestDepth - 2) [] members
      | some _ => none
    let parameters ← match parameters with
      | none => some []
      | some (.array items) => items.mapM EntrypointParameter.ofJson?
      | some _ => none
    return ⟨graph, tasks, parameters⟩
  | _ => none

def ofText? (text : String) : Option EntrypointRequest := do ofJson? (← Json.ofText? text)

/-- The parameters as one mapping: of two with the same name the first keeps its place and the last
one counts. -/
def parameterEntries (r : EntrypointRequest) : Entries :=
  r.parameters.foldl (fun es p ↦ Entries.insert p.name p.spec es) []

/-- The document that a request makes up, if its graph can be read. -/
def document? (r : EntrypointRequest) : Option Value := do
  let graph ← Yaml.read? r.graph
  let parameters :=
    if r.parameters.isEmpty then []
    else [(Value.string "parameters", Value.mapping r.parameterEntries)]
  return .mapping
    (parameters ++ [(.string "tasks", .mapping r.tasks), (.string "graph", graph)])

/-- Everything that is wrong with an entrypoint. -/
def problems (r : EntrypointRequest) : List Problem :=
  match r.document? with
  | some doc => doc.problems
  | none => [.unreadableText]

/-- Everything that is wrong with the text of a request. -/
def problemsOfText (text : String) : List Problem :=
  match ofText? text with
  | some r => r.problems
  | none => [.unreadableRequest]

end EntrypointRequest

end LabPlan
