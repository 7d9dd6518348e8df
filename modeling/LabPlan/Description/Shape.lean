import LabPlan.Description.Basic
import LabPlan.Description.Checked
import LabPlan.Description.Plugin
import LabPlan.Types.Accept
import LabPlan.Types.Registry

/-! # The shape of a description

A document becomes a description when its shape is right.  It is a mapping with the sections
`parameters`, `tasks` and `graph`; each section is checked entry by entry, and every problem is
noted in document order.  Keys are recognised by their text, which looks through tags, while the
value of a key is looked up under the plain string only. -/

namespace LabPlan

namespace Shape

/-- The key reads as one of these names. -/
def readsAs (names : List String) (key : Value) : Bool :=
  match key.text? with
  | some s => names.contains s
  | none => false

/-- The names of a section's known keys. -/
def sections : List String := ["parameters", "tasks", "graph"]

def parameterKeys : List String := ["default", "type"]

def taskKeys : List String := ["plugin", "outputs"]

def stepKeys : List String := ["task", "args", "kwargs", "dependencies"]

/-! ## Parameters -/

/-- A name that is new among the names before it and has no dot. -/
def declare (seen : List String) (name : String) : Checked Bool :=
  if name.toList.contains '.' then do
    Checked.note (.parameterNameDotted name)
    return false
  else if seen.contains name then do
    Checked.note (.parameterRepeated name)
    return false
  else return true

/-- The type that a parameter's specification names: nothing is written, or a built-in type. -/
def parameterType (name : String) (spec : Entries) : Checked (Option (Option Builtin)) :=
  match Entries.lookup "type" spec with
  | none => return some none
  | some (.string t) =>
    match Builtin.ofName? t with
    | some b => return some (some b)
    | none => Checked.reject (.parameterTypeUnknown name t)
  | some v => Checked.reject (.parameterTypeNotName name v)

/-- A parameter: a default, or a mapping with a default and a type, both optional. -/
def parameter (name : String) : Value → Checked (Option Parameter)
  | .mapping spec =>
    match (Entries.keys spec).find? fun k ↦ !readsAs parameterKeys k with
    | some k => Checked.reject (.unknownParameterKey k name)
    | none => do
      match ← parameterType name spec with
      | none => return none
      | some type =>
        let default := Entries.lookup "default" spec
        match type, default with
        | some b, some v =>
          if (Ty.ofBuiltin b).accepts v then return some ⟨name, v, some b.name⟩
          else Checked.reject (.defaultRejected name b.name)
        | type, default => return some ⟨name, default.getD .null, type.map Builtin.name⟩
  | v => return some ⟨name, v, none⟩

/-- Parameters one after the other, given the names declared before. -/
def parameterEntries (seen : List String) : Entries → Checked (List Parameter)
  | [] => return []
  | (key, spec) :: es =>
    match key.text? with
    | none => do
      Checked.note (.parameterNameNotText key)
      parameterEntries seen es
    | some name => do
      if ← declare seen name then
        let p ← parameter name spec
        let ps ← parameterEntries (name :: seen) es
        return p.toList ++ ps
      else parameterEntries seen es

/-- Bare names of parameters one after the other, given the names declared before. -/
def parameterNames (seen : List String) : List Value → Checked (List Parameter)
  | [] => return []
  | item :: items =>
    match item.text? with
    | none => do
      Checked.note (.parameterNameNotText item)
      parameterNames seen items
    | some name => do
      if ← declare seen name then
        let ps ← parameterNames (name :: seen) items
        return ⟨name, .null, none⟩ :: ps
      else parameterNames seen items

/-- The parameters: a list of names or a mapping. -/
def parameters : Value → Checked (List Parameter)
  | .sequence items => parameterNames [] items
  | .mapping es => parameterEntries [] es
  | _ => do
    Checked.note .parametersNotNames
    return []

/-! ## Tasks -/

/-- The first output that is empty, holds a dot or came before. -/
def invalidOutput? (seen : List String) : List String → Option String
  | [] => none
  | o :: os =>
    if o.isEmpty || o.toList.contains '.' || seen.contains o then some o
    else invalidOutput? (o :: seen) os

/-- The names of a task's outputs, before they are compared. -/
def outputNames (task : String) : Value → Checked (Option (List String))
  | .string s => return some [s]
  | .sequence items =>
    match items.mapM Value.text? with
    | some names => return some names
    | none => Checked.reject (.outputNotText task)
  | _ => Checked.reject (.outputsNotNames task)

/-- A task's outputs: a name or a list of names. -/
def outputs (task : String) (v : Value) : Checked (Option (List String)) := do
  match ← outputNames task v with
  | none => return none
  | some names =>
    match invalidOutput? [] names with
    | some o => Checked.reject (.outputInvalid o task)
    | none => return some names

/-- A task's plugin. -/
def plugin (task : String) : Option Value → Checked (Option String)
  | none => Checked.reject (.pluginMissing task)
  | some (.string s) =>
    if Plugin.isPath s then return some s
    else Checked.reject (.pluginMalformed task (.string s))
  | some v => Checked.reject (.pluginMalformed task v)

/-- A task: a mapping with a plugin and perhaps outputs. -/
def task (name : String) : Value → Checked (Option TaskDecl)
  | .mapping spec => do
    let unknown := (Entries.keys spec).filter fun k ↦ !readsAs taskKeys k
    Checked.notes (unknown.map fun k ↦ .unknownTaskKey k name)
    let plugin ← plugin name (Entries.lookup "plugin" spec)
    let outputs ← match Entries.lookup "outputs" spec with
      | none => pure (some [])
      | some v => outputs name v
    match plugin, outputs with
    | some p, some os => return if unknown.isEmpty then some ⟨name, p, os⟩ else none
    | _, _ => return none
  | _ => Checked.reject (.taskNotMapping name)

/-- An entry of the tasks. -/
def taskEntry (e : Value × Value) : Checked (Option TaskDecl) :=
  match e.1.text? with
  | none => Checked.reject (.taskNameNotText e.1)
  | some name => task name e.2

/-- The tasks: a mapping, not empty. -/
def tasks : Value → Checked (List TaskDecl)
  | .mapping (e :: es) => do
    let found ← Checked.forEach taskEntry (e :: es)
    return found.filterMap id
  | _ => do
    Checked.note .tasksNotMapping
    return []

/-- The names under which tasks are declared, whether or not the tasks are in order. -/
def declaredTasks (root : Entries) : List String :=
  match (Entries.lookup "tasks" root).bind Value.entries? with
  | some es => (Entries.keys es).filterMap Value.text?
  | none => []

/-! ## Arguments -/

mutual

/-- An argument: strings may be references, and tags are dropped. -/
def argument (step : String) : Value → Checked Argument
  | .string s =>
    match Reference.read s with
    | .literal => return .literal (.string s)
    | .reference r => return .reference r
    | .malformed => do
      Checked.note (.malformedReference step s)
      return .literal (.string s)
  | .sequence items => do return .list (← arguments step items)
  | .mapping es => do return .map (← argumentEntries step es)
  | .tagged _ v => argument step v
  | v => return .literal v
termination_by structural v => v

def arguments (step : String) : List Value → Checked (List Argument)
  | [] => return []
  | v :: vs => do
    let a ← argument step v
    let as ← arguments step vs
    return a :: as
termination_by structural vs => vs

def argumentEntries (step : String) : Entries → Checked (List (Value × Argument))
  | [] => return []
  | e :: es => do
    let a ← argumentEntry step e
    let as ← argumentEntries step es
    return a :: as
termination_by structural es => es

def argumentEntry (step : String) : Value × Value → Checked (Value × Argument)
  | (k, v) => do return (k, ← argument step v)
termination_by structural e => e

end

/-- Keyword arguments; a name that is no string ends them. -/
def keywords (step : String) : Entries → Checked (Option (List (String × Argument)))
  | [] => return some []
  | (k, v) :: es =>
    match k.text? with
    | none => Checked.reject (.keywordNotText step k)
    | some name => do
      let a ← argument step v
      match ← keywords step es with
      | some as => return some ((name, a) :: as)
      | none => return none

/-! ## Steps -/

/-- What a step invokes, and how. -/
structure Invocation where
  task : String
  args : List Argument
  kwargs : List (String × Argument)
deriving Repr

/-- A step is in expanded form when its `task` names a declared task, or when it has a `task` and
no declared task is itself called `task`. -/
def isExpanded (declared : List String) (spec : Entries) : Bool :=
  match Entries.lookup "task" spec with
  | none => false
  | some (.string s) => declared.contains s || !declared.contains "task"
  | some _ => !declared.contains "task"

/-- Positional arguments: a sequence of them, or a single one. -/
def positional (step : String) : Option Value → Checked (List Argument)
  | none => return []
  | some (.sequence items) => arguments step items
  | some v => do return [← argument step v]

/-- A step in expanded form: `task`, with `args` and `kwargs` if wanted. -/
def expanded (declared : List String) (step : String) (spec : Entries) :
    Checked (Option Invocation) := do
  let unknown := (Entries.keys spec).filter fun k ↦ !readsAs stepKeys k
  Checked.notes (unknown.map fun k ↦ .unknownStepKey k step)
  let named := (Entries.lookup "task" spec).bind Value.text?
  match named.filter declared.contains with
  | none => Checked.reject (.unknownTaskNamed step named)
  | some task =>
    let args ← positional step (Entries.lookup "args" spec)
    match Entries.lookup "kwargs" spec with
    | none => return some ⟨task, args, []⟩
    | some (.mapping es) =>
      let kwargs ← keywords step es
      return kwargs.map fun kwargs ↦ ⟨task, args, kwargs⟩
    | some _ => Checked.reject (.keywordsNotMapping step)

/-- The invocation of a task in short form: a sequence of positional arguments, a mapping of
keyword arguments, or a single positional argument. -/
def invocation (step task : String) : Value → Checked (Option Invocation)
  | .sequence items => do return some ⟨task, ← arguments step items, []⟩
  | .mapping es => do
    let kwargs ← keywords step es
    return kwargs.map fun kwargs ↦ ⟨task, [], kwargs⟩
  | v => do return some ⟨task, [← argument step v], []⟩

/-- A step in short form: besides its dependencies it has a single entry, under a task's name. -/
def shorthand (declared : List String) (step : String) (spec : Entries) :
    Checked (Option Invocation) :=
  match spec.filter fun e ↦ !readsAs ["dependencies"] e.1 with
  | [(key, v)] =>
    match key.text?.filter declared.contains with
    | some task => invocation step task v
    | none => Checked.reject (.unknownTaskInvoked step key)
  | invocations => Checked.reject (.notOneInvocation step invocations.length)

/-- A step's dependencies: a name or a list of names. -/
def dependencies (step : String) : Option Value → Checked (List String)
  | none => return []
  | some (.string s) => return [s]
  | some (.sequence items) =>
    match items.mapM Value.text? with
    | some names => return names
    | none => do
      Checked.note (.dependenciesNotNames step)
      return []
  | some _ => do
    Checked.note (.dependenciesNotNames step)
    return []

/-- The parts of a step. -/
def stepParts (declared : List String) (name : String) (spec : Entries) :
    Checked (Option Step) := do
  let found ← if isExpanded declared spec then expanded declared name spec
    else shorthand declared name spec
  let deps ← dependencies name (Entries.lookup "dependencies" spec)
  return found.map fun i ↦ ⟨name, i.task, i.args, i.kwargs, deps⟩

/-- A step: a mapping without any problem. -/
def step (declared : List String) (name : String) : Value → Checked (Option Step)
  | .mapping spec =>
    let parts := stepParts declared name spec
    ⟨parts.problems, if parts.problems.isEmpty then parts.result else none⟩
  | _ => Checked.reject (.stepNotMapping name)

/-- An entry of the graph. -/
def stepEntry (declared : List String) (e : Value × Value) : Checked (Option Step) :=
  match e.1.text? with
  | none => Checked.reject (.stepNameNotText e.1)
  | some name =>
    if name.toList.contains '.' then Checked.reject (.stepNameDotted name)
    else step declared name e.2

/-- The graph: a mapping of steps, not empty. -/
def graph (declared : List String) : Value → Checked (List Step)
  | .mapping (e :: es) => do
    let found ← Checked.forEach (stepEntry declared) (e :: es)
    return found.filterMap id
  | _ => do
    Checked.note .graphNotMapping
    return []

/-! ## The document -/

/-- A section that is read if it is there. -/
def optional {α : Type} (f : Value → Checked (List α)) : Option Value → Checked (List α)
  | none => return []
  | some v => f v

/-- The sections of a document. -/
def document (root : Entries) : Checked Description := do
  let unknown := (Entries.keys root).filter fun k ↦ !readsAs sections k
  Checked.notes (unknown.map .unknownSection)
  let missing := ["tasks", "graph"].filter fun s ↦ (Entries.lookup s root).isNone
  Checked.notes (missing.map .missingSection)
  let parameters ← optional parameters (Entries.lookup "parameters" root)
  let tasks ← optional tasks (Entries.lookup "tasks" root)
  let steps ← optional (graph (declaredTasks root)) (Entries.lookup "graph" root)
  return ⟨parameters, tasks, steps⟩

end Shape

namespace Description

/-- The description that a document holds, or everything that is wrong with its shape. -/
def ofValue : Value → Except (List Problem) Description
  | .mapping root => (Shape.document root).toExcept
  | _ => .error [.rootNotMapping]

/-- The description that a text holds. -/
def ofText (text : String) : Except (List Problem) Description :=
  match Yaml.read? text with
  | some v => ofValue v
  | none => .error [.unreadableText]

end Description

end LabPlan
