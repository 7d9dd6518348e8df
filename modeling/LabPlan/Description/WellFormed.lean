import LabPlan.Description.Basic
import LabPlan.Description.Plugin
import LabPlan.Types.Accept
import LabPlan.Value.Within

/-! # Well-formed descriptions

What is true of every description that a document can hold: nothing is declared twice, names can be
referred to, tasks are declared before they are invoked, and arguments hold no tags and no text
that would be read as a reference. -/

namespace LabPlan

namespace Value

/-- A value that is no collection and has no tag. -/
def isScalar : Value → Bool
  | sequence _ | mapping _ | tagged _ _ => false
  | _ => true

end Value

/-- The text would be read as a reference, well formed or not. -/
def Reference.isSought (text : String) : Bool := text.toList.head? == some '$'

namespace Argument

/-- Literals are untagged scalars that are not read as references, references can be written, and a
map has no key twice. -/
inductive IsWellFormed : Argument → Prop where
  | literal {v : Value} (hv : v.isScalar = true)
    (hs : ∀ s, v = .string s → Reference.isSought s = false) : IsWellFormed (literal v)
  | reference {r : Reference} (hr : r.IsWritable) : IsWellFormed (reference r)
  | list {as : List Argument} (h : ∀ a ∈ as, IsWellFormed a) : IsWellFormed (list as)
  | map {es : List (Value × Argument)} (hk : es.Pairwise fun e f ↦ e.1.same f.1 = false)
    (h : ∀ e ∈ es, IsWellFormed e.2) : IsWellFormed (map es)

end Argument

/-- A name that can stand in a reference before a field: it holds no dot. -/
def IsUndotted (name : String) : Prop := '.' ∉ name.toList

/-- A parameter's type is built in, and takes the default if there is one. -/
def Parameter.IsWellTyped (p : Parameter) : Prop :=
  ∀ t, p.typeName = some t →
    ∃ b : Builtin, b.name = t ∧ (p.default = .null ∨ (Ty.ofBuiltin b).accepts p.default = true)

/-- A task stands for a plugin, and its outputs are distinct names that can be referred to. -/
structure TaskDecl.IsWellFormed (t : TaskDecl) : Prop where
  plugin : Plugin.isPath t.plugin = true
  nodup : t.outputs.Nodup
  outputs : ∀ o ∈ t.outputs, o ≠ "" ∧ IsUndotted o

/-- Keyword arguments have distinct names, and all arguments are well formed. -/
structure Step.IsWellFormed (s : Step) : Prop where
  nodup : (s.kwargs.map Prod.fst).Nodup
  args : ∀ a ∈ s.args, a.IsWellFormed
  kwargs : ∀ k ∈ s.kwargs, k.2.IsWellFormed

namespace Description

/-- A description that a document can hold. -/
structure IsWellFormed (d : Description) : Prop where
  parameters_nodup : (d.parameters.map Parameter.name).Nodup
  parameters_undotted : ∀ p ∈ d.parameters, IsUndotted p.name
  parameters_typed : ∀ p ∈ d.parameters, p.IsWellTyped
  tasks_ne_nil : d.tasks ≠ []
  tasks_nodup : (d.tasks.map TaskDecl.name).Nodup
  tasks : ∀ t ∈ d.tasks, t.IsWellFormed
  steps_ne_nil : d.steps ≠ []
  steps_nodup : (d.steps.map Step.name).Nodup
  steps_undotted : ∀ s ∈ d.steps, IsUndotted s.name
  steps_declared : ∀ s ∈ d.steps, s.task ∈ d.tasks.map TaskDecl.name
  steps : ∀ s ∈ d.steps, s.IsWellFormed

end Description

end LabPlan
