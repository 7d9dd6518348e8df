import LabPlan.Description.Shape
import LabPlan.StepGraph.Component
import LabPlan.StepGraph.Order

/-! # Validation of descriptions

A description is valid when its steps can be run: no step is named like a parameter, every
dependency is a step, no step waits for itself, and every reference names a parameter or an output
of a step. -/

namespace LabPlan

namespace Description

/-! ## Steps and their graph -/

/-- Steps that are named like parameters. -/
def nameClashes (d : Description) : List Problem :=
  (d.steps.filter fun s ↦ (d.parameters.map Parameter.name).contains s.name).map
    fun s ↦ .stepNamedLikeParameter s.name

/-- Dependencies that are no steps. -/
def unknownDependencies (d : Description) (g : StepGraph) : List Problem :=
  d.steps.flatMap fun s ↦
    (s.dependencies.filter fun n ↦ (g.index? n).isNone).map (.unknownDependency s.name ·)

end Description

namespace StepGraph

/-- Steps that depend on themselves. -/
def selfLoops (g : StepGraph) : List Problem :=
  (g.edges.filter fun e ↦ e.source == e.target).map fun e ↦ .dependsOnItself (g.nameOf e.source)

/-- Components of two or more steps. -/
def cycles (g : StepGraph) : List Problem :=
  (g.components.filter fun c ↦ 2 ≤ c.length).map fun c ↦ .dependencyCycle (g.componentNames c)

end StepGraph

namespace Description

/-- Problems of the steps taken together. -/
def structureProblems (d : Description) (g : StepGraph) : List Problem :=
  d.nameClashes ++ d.unknownDependencies g ++ g.selfLoops ++ g.cycles

/-! ## References -/

/-- The outputs of a step's task; a task that is not declared has none. -/
def outputsOf (d : Description) (s : Step) : List String :=
  match d.task? s.task with
  | some t => t.outputs
  | none => []

/-- What is wrong with a reference to a step. -/
def outputProblem? (d : Description) (step : String) (target : Step) (r : Reference) :
    Option Problem :=
  let outputs := d.outputsOf target
  match r.field with
  | none =>
    if outputs.length == 1 then none
    else some (.ambiguousReference step r.text target.task outputs.length)
  | some field =>
    if outputs.contains field then none
    else some (.undeclaredOutput step r.text field target.task)

/-- What is wrong with a reference that stands in a step. -/
def referenceProblem? (d : Description) (step : String) (r : Reference) : Option Problem :=
  match d.parameter? r.name with
  | some _ => if r.field.isSome then some (.parameterHasNoFields step r.text r.name) else none
  | none =>
    match d.step? r.name with
    | some target => d.outputProblem? step target r
    | none => some (.unresolvedReference step r.text)

/-- Problems of references, step by step. -/
def referenceProblems (d : Description) : List Problem :=
  d.steps.flatMap fun s ↦ s.references.filterMap (d.referenceProblem? s.name)

/-- Everything that is wrong with a description and its graph. -/
def problems (d : Description) (g : StepGraph) : List Problem :=
  d.structureProblems g ++ d.referenceProblems

end Description

namespace Value

/-- Everything that is wrong with a document. -/
def problems (v : Value) : List Problem :=
  match Description.ofValue v with
  | .ok d => d.problems (.ofDescription d)
  | .error ps => ps

/-- The document is a valid description. -/
def isValid (v : Value) : Bool := v.problems.isEmpty

end Value

/-- Everything that is wrong with the text of a description. -/
def problemsOfText (text : String) : List Problem :=
  match Yaml.read? text with
  | some v => v.problems
  | none => [.unreadableText]

end LabPlan
