import LabPlan.Description.Basic

/-! # Descriptions as documents

The canonical document of a description.  Parameters are written as mappings with a default and a
type, tasks with a list of outputs, and steps in expanded form, with every argument, keyword and
dependency in its place. -/

namespace LabPlan

namespace Argument

mutual

/-- An argument as it is written: a reference as its text. -/
def toValue : Argument → Value
  | literal v => v
  | reference r => .string r.text
  | list items => .sequence (toValues items)
  | map entries => .mapping (toEntries entries)
termination_by structural a => a

def toValues : List Argument → List Value
  | [] => []
  | a :: as => toValue a :: toValues as
termination_by structural as => as

def toEntries : List (Value × Argument) → Entries
  | [] => []
  | e :: es => toEntry e :: toEntries es
termination_by structural es => es

def toEntry : Value × Argument → Value × Value
  | (k, a) => (k, toValue a)
termination_by structural e => e

end

theorem toValues_eq (as : List Argument) : toValues as = as.map toValue := by
  induction as with
  | nil => rfl
  | cons a as ih => rw [toValues, ih, List.map_cons]

theorem toEntries_eq (es : List (Value × Argument)) :
    toEntries es = es.map fun e ↦ (e.1, e.2.toValue) := by
  induction es with
  | nil => rfl
  | cons e es ih => rw [toEntries, ih, List.map_cons, toEntry]

@[simp] theorem toValue_list (as : List Argument) :
    (list as).toValue = .sequence (as.map toValue) := by rw [toValue, toValues_eq]

@[simp] theorem toValue_map (es : List (Value × Argument)) :
    (map es).toValue = .mapping (es.map fun e ↦ (e.1, e.2.toValue)) := by
  rw [toValue, toEntries_eq]

end Argument

/-- Texts as a sequence. -/
def Value.ofStrings (ss : List String) : Value := .sequence (ss.map .string)

/-- The specification of a parameter; a default of null and an absent type are left out. -/
def Parameter.toValue (p : Parameter) : Value :=
  let default := match p.default with
    | .null => []
    | v => [(Value.string "default", v)]
  let type := match p.typeName with
    | some t => [(Value.string "type", Value.string t)]
    | none => []
  .mapping (default ++ type)

def TaskDecl.toValue (t : TaskDecl) : Value :=
  .mapping [(.string "plugin", .string t.plugin), (.string "outputs", .ofStrings t.outputs)]

def Step.toValue (s : Step) : Value :=
  .mapping [(.string "task", .string s.task),
    (.string "args", .sequence (s.args.map Argument.toValue)),
    (.string "kwargs", .mapping (s.kwargs.map fun k ↦ (.string k.1, k.2.toValue))),
    (.string "dependencies", .ofStrings s.dependencies)]

/-- The canonical document of a description. -/
def Description.toValue (d : Description) : Value :=
  .mapping [
    (.string "parameters", .mapping (d.parameters.map fun p ↦ (.string p.name, p.toValue))),
    (.string "tasks", .mapping (d.tasks.map fun t ↦ (.string t.name, t.toValue))),
    (.string "graph", .mapping (d.steps.map fun s ↦ (.string s.name, s.toValue)))]

end LabPlan
