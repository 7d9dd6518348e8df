import LabPlan.Reference
import LabPlan.Value.Basic

/-! # Experiment descriptions

A description declares parameters, tasks and steps.  A task stands for a plugin; a step invokes a
task with arguments, and waits for the steps that it depends on or refers to. -/

namespace LabPlan

/-- A parameter with its default, null if none is given, and perhaps a built-in type. -/
structure Parameter where
  name : String
  default : Value
  typeName : Option String
deriving Repr, Inhabited

/-- A short name for a plugin, and the names of its outputs. -/
structure TaskDecl where
  name : String
  plugin : String
  outputs : List String
deriving DecidableEq, Repr, Inhabited

/-- An argument of a step, possibly nested. -/
inductive Argument where
  | literal (value : Value)
  | reference (target : Reference)
  | list (items : List Argument)
  | map (entries : List (Value × Argument))
deriving Repr, Inhabited

/-- An invocation of a task. -/
structure Step where
  name : String
  task : String
  args : List Argument
  kwargs : List (String × Argument)
  dependencies : List String
deriving Repr, Inhabited

/-- An experiment description. -/
structure Description where
  parameters : List Parameter
  tasks : List TaskDecl
  steps : List Step
deriving Repr, Inhabited

namespace Argument

mutual

/-- The references in an argument, from left to right. -/
def references : Argument → List Reference
  | literal _ => []
  | reference r => [r]
  | list items => referencesAll items
  | map entries => referencesEach entries
termination_by structural a => a

def referencesAll : List Argument → List Reference
  | [] => []
  | a :: as => references a ++ referencesAll as
termination_by structural as => as

def referencesEach : List (Value × Argument) → List Reference
  | [] => []
  | e :: es => referencesEntry e ++ referencesEach es
termination_by structural es => es

def referencesEntry : Value × Argument → List Reference
  | (_, a) => references a
termination_by structural e => e

end

theorem referencesAll_eq (as : List Argument) : referencesAll as = as.flatMap references := by
  induction as with
  | nil => rfl
  | cons a as ih => rw [referencesAll, ih, List.flatMap_cons]

theorem referencesEach_eq (es : List (Value × Argument)) :
    referencesEach es = es.flatMap fun e ↦ references e.2 := by
  induction es with
  | nil => rfl
  | cons e es ih => rw [referencesEach, ih, List.flatMap_cons, referencesEntry]

end Argument

/-- The references in a step's positional arguments, then in its keyword arguments. -/
def Step.references (s : Step) : List Reference :=
  s.args.flatMap Argument.references ++ s.kwargs.flatMap fun k ↦ k.2.references

namespace Description

/-- The first parameter of a name. -/
def parameter? (d : Description) (name : String) : Option Parameter :=
  d.parameters.find? (·.name == name)

/-- The first task of a name. -/
def task? (d : Description) (name : String) : Option TaskDecl :=
  d.tasks.find? (·.name == name)

/-- The first step of a name. -/
def step? (d : Description) (name : String) : Option Step :=
  d.steps.find? (·.name == name)

end Description

end LabPlan
