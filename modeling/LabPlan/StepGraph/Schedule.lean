import LabPlan.Description.Within
import LabPlan.Validation

/-! # Schedules

What it means that the steps of a description can be run, said without a graph.  One step waits for
another if it lists it or refers to it; a schedule puts every step after all that it needs. -/

namespace LabPlan

/-- The step lists the other one as a dependency, or refers to it in some argument at any depth. -/
def Step.Names (s : Step) (name : String) : Prop := name ∈ s.dependencies ∨ s.RefersTo name

theorem Step.names_iff {s : Step} {name : String} :
    s.Names name ↔ name ∈ s.dependencies ∨ ∃ r ∈ s.references, r.name = name :=
  or_congr_right refersTo_iff

namespace Description

/-- Some step has this name. -/
def IsStep (d : Description) (name : String) : Prop := name ∈ d.steps.map Step.name

/-- Some parameter has this name. -/
def IsParameter (d : Description) (name : String) : Prop :=
  name ∈ d.parameters.map Parameter.name

/-- `Waits d a b`: the step named `b` waits for the step named `a`. -/
def Waits (d : Description) (a b : String) : Prop :=
  d.IsStep a ∧ ∃ s ∈ d.steps, s.name = b ∧ s.Names a

/-- The task is declared, and no task of its name is declared before it. -/
def FirstTask (d : Description) (t : TaskDecl) : Prop :=
  ∃ before after, d.tasks = before ++ t :: after ∧ ∀ u ∈ before, u.name ≠ t.name

/-- A step offers what a reference with this field asks of it: an output that the first task of its
task's name declares, or the only one.  Where no task has the name there are no outputs. -/
def Offers (d : Description) (s : Step) (field : Option String) : Prop :=
  ∃ t, d.FirstTask t ∧ t.name = s.task ∧
    match field with
    | none => ∃ o, t.outputs = [o]
    | some o => o ∈ t.outputs

/-- A reference can be resolved after these steps: it is a bare name of a parameter, or names no
parameter and one of the steps offers what it asks for. -/
def Resolves (d : Description) (before : List Step) (r : Reference) : Prop :=
  (r.field = none ∧ d.IsParameter r.name) ∨
    (¬ d.IsParameter r.name ∧ ∃ s ∈ before, s.name = r.name ∧ d.Offers s r.field)

/-- After these steps everything is there that a step needs. -/
def Ready (d : Description) (before : List Step) (s : Step) : Prop :=
  (∀ n ∈ s.dependencies, n ∈ before.map Step.name) ∧ ∀ r, s.Refers r → d.Resolves before r

/-- An order of all steps in which each is ready when its turn comes. -/
structure IsSchedule (d : Description) (steps : List Step) : Prop where
  perm : steps.Perm d.steps
  ready : ∀ before s after, steps = before ++ s :: after → d.Ready before s

/-- No step has the name of a parameter. -/
def NamesApart (d : Description) : Prop := ∀ s ∈ d.steps, ¬ d.IsParameter s.name

end Description

end LabPlan
