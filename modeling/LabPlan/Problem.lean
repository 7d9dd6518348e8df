import LabPlan.Value.Display

/-! # Problems of a description

Everything that can be wrong with an experiment description, by its cause.  Codes are stable:
`P` for text that cannot be read, `S` for the shape of a document, `V` for the steps taken
together and `R` for references. -/

namespace LabPlan

/-- When a problem is found: while the document is read, or in the description as a whole. -/
inductive Phase where
  | parse
  | validate
deriving DecidableEq, Repr

def Phase.name : Phase → String
  | parse => "Parse"
  | validate => "Validate"

/-- A problem as it is shown: its code, phase and message, and the step it belongs to. -/
structure Report where
  code : String
  phase : Phase
  message : String
  step : Option String
deriving DecidableEq, Repr

namespace Report

/-- A report from reading the document. -/
def parse (code message : String) : Report := ⟨code, .parse, message, none⟩

/-- A report from reading one step of the document. -/
def parseAt (code message step : String) : Report := ⟨code, .parse, message, some step⟩

/-- A report on the description as a whole. -/
def validate (code message : String) (step : Option String) : Report :=
  ⟨code, .validate, message, step⟩

/-- The report in one line. -/
def line (r : Report) : String :=
  let head := "[" ++ r.phase.name ++ ":" ++ r.code ++ "] " ++ r.message
  match r.step with
  | some s => head ++ " (step '" ++ s ++ "')"
  | none => head

end Report

/-- What is wrong with a description. -/
inductive Problem where
  /-- The text of the description is no YAML document. -/
  | unreadableText
  /-- The text of a request is no request. -/
  | unreadableRequest
  | rootNotMapping
  | unknownSection (key : Value)
  | missingSection (name : String)
  | tasksNotMapping
  | taskNameNotText (key : Value)
  | taskNotMapping (task : String)
  | pluginMissing (task : String)
  | pluginMalformed (task : String) (found : Value)
  | unknownTaskKey (key : Value) (task : String)
  | outputsNotNames (task : String)
  | outputNotText (task : String)
  | outputInvalid (output task : String)
  | parametersNotNames
  | parameterNameNotText (key : Value)
  | parameterRepeated (name : String)
  | parameterNameDotted (name : String)
  | unknownParameterKey (key : Value) (parameter : String)
  | parameterTypeNotName (parameter : String) (found : Value)
  | parameterTypeUnknown (parameter type : String)
  | defaultRejected (parameter type : String)
  | graphNotMapping
  | stepNameNotText (key : Value)
  | stepNotMapping (step : String)
  /-- The task key of a step in expanded form names no declared task. -/
  | unknownTaskNamed (step : String) (found : Option String)
  /-- The only invocation of a step in short form is of no declared task. -/
  | unknownTaskInvoked (step : String) (key : Value)
  | unknownStepKey (key : Value) (step : String)
  | notOneInvocation (step : String) (count : Nat)
  | keywordsNotMapping (step : String)
  | keywordNotText (step : String) (key : Value)
  | dependenciesNotNames (step : String)
  | malformedReference (step text : String)
  | stepNameDotted (step : String)
  | stepNamedLikeParameter (step : String)
  | unknownDependency (step dependency : String)
  | dependsOnItself (step : String)
  /-- The steps of a cycle of two or more, in increasing order. -/
  | dependencyCycle (steps : List String)
  /-- No order exists, since this step lies on a cycle. -/
  | noOrder (step : String)
  | unresolvedReference (step reference : String)
  | parameterHasNoFields (step reference parameter : String)
  | ambiguousReference (step reference task : String) (outputs : Nat)
  | undeclaredOutput (step reference output task : String)
deriving Repr

/-- Fewest segments of a plugin path. -/
def pluginSegments : Nat := 3

namespace Problem

/-- The stable code. -/
def code : Problem → String
  | unreadableText | unreadableRequest => "P001"
  | rootNotMapping => "S001"
  | unknownSection _ => "S002"
  | missingSection _ => "S003"
  | tasksNotMapping => "S010"
  | taskNameNotText _ => "S011"
  | taskNotMapping _ | pluginMissing _ => "S012"
  | pluginMalformed _ _ => "S013"
  | unknownTaskKey _ _ => "S014"
  | outputsNotNames _ | outputNotText _ | outputInvalid _ _ => "S015"
  | parametersNotNames => "S020"
  | parameterNameNotText _ => "S021"
  | parameterRepeated _ => "S022"
  | parameterNameDotted _ => "S023"
  | unknownParameterKey _ _ => "S024"
  | parameterTypeNotName _ _ | parameterTypeUnknown _ _ | defaultRejected _ _ => "S025"
  | graphNotMapping => "S030"
  | stepNameNotText _ => "S031"
  | stepNotMapping _ => "S032"
  | unknownTaskNamed _ _ | unknownTaskInvoked _ _ => "S033"
  | unknownStepKey _ _ | notOneInvocation _ _ => "S034"
  | keywordsNotMapping _ | keywordNotText _ _ => "S035"
  | dependenciesNotNames _ => "S036"
  | malformedReference _ _ => "S037"
  | stepNameDotted _ => "S038"
  | stepNamedLikeParameter _ => "V001"
  | unknownDependency _ _ => "V002"
  | dependsOnItself _ => "V003"
  | dependencyCycle _ | noOrder _ => "V004"
  | unresolvedReference _ _ => "R001"
  | parameterHasNoFields _ _ _ => "R002"
  | ambiguousReference _ _ _ _ => "R003"
  | undeclaredOutput _ _ _ _ => "R004"

/-- Problems of references and of the steps taken together are found last. -/
def phase : Problem → Phase
  | stepNamedLikeParameter _ | unknownDependency _ _ | dependsOnItself _ | dependencyCycle _
  | noOrder _ | unresolvedReference _ _ | parameterHasNoFields _ _ _ | ambiguousReference _ _ _ _
  | undeclaredOutput _ _ _ _ => .validate
  | _ => .parse

/-- The step that a problem belongs to. -/
def step : Problem → Option String
  | stepNotMapping s | unknownTaskNamed s _ | unknownTaskInvoked s _ | unknownStepKey _ s
  | notOneInvocation s _ | keywordsNotMapping s | keywordNotText s _ | dependenciesNotNames s
  | malformedReference s _ | stepNameDotted s | stepNamedLikeParameter s | unknownDependency s _
  | dependsOnItself s | noOrder s | unresolvedReference s _ | parameterHasNoFields s _ _
  | ambiguousReference s _ _ _ | undeclaredOutput s _ _ _ => some s
  | dependencyCycle steps => steps.head?
  | _ => none

/-- A name between single quotes. -/
def named (s : String) : String := "'" ++ s ++ "'"

/-- The wording of a problem. -/
def message : Problem → String
  | unreadableText => "Failed to parse experiment description YAML: ..."
  | unreadableRequest => "Failed to parse entrypoint request JSON: ..."
  | rootNotMapping => "Experiment description must be a mapping"
  | unknownSection k => "Unknown top-level key " ++ k.keyName
  | missingSection n => "Missing required key " ++ named n
  | tasksNotMapping => "'tasks' must be a non-empty mapping"
  | taskNameNotText k => "Task names must be strings, found " ++ k.display
  | taskNotMapping t => "Task " ++ named t ++ " must be a mapping with a 'plugin'"
  | pluginMissing t => "Task " ++ named t ++ " is missing 'plugin'"
  | pluginMalformed t v =>
    "Task " ++ named t ++ " plugin " ++ v.display ++ " must be a dotted path of at least " ++
      toString pluginSegments ++ " identifiers"
  | unknownTaskKey k t => "Unknown key " ++ k.keyName ++ " in task " ++ named t
  | outputsNotNames t => "Outputs of task " ++ named t ++ " must be a name or a list of names"
  | outputNotText t => "Outputs of task " ++ named t ++ " must be strings"
  | outputInvalid o t => "Invalid or duplicate output " ++ named o ++ " in task " ++ named t
  | parametersNotNames => "'parameters' must be a list of names or a mapping"
  | parameterNameNotText k => "Parameter names must be strings, found " ++ k.display
  | parameterRepeated p => "Duplicate parameter " ++ named p
  | parameterNameDotted p => "Parameter name " ++ named p ++ " must not contain '.'"
  | unknownParameterKey k p => "Unknown key " ++ k.keyName ++ " in parameter " ++ named p
  | parameterTypeNotName p v =>
    "Type of parameter " ++ named p ++ " must be a type name, found " ++ v.display
  | parameterTypeUnknown p t => "Parameter " ++ named p ++ " has unknown type " ++ named t
  | defaultRejected p t => "Default of parameter " ++ named p ++ " is not a valid " ++ named t
  | graphNotMapping => "'graph' must be a non-empty mapping"
  | stepNameNotText k => "Step names must be strings, found " ++ k.display
  | stepNotMapping s => "Step " ++ named s ++ " must be a mapping"
  | unknownTaskNamed s found =>
    let shown := match found with
      | some t => "Some(" ++ Text.quote t ++ ")"
      | none => "None"
    "Step " ++ named s ++ " names unknown task " ++ shown
  | unknownTaskInvoked s k => "Step " ++ named s ++ " names unknown task " ++ k.keyName
  | unknownStepKey k s => "Unknown key " ++ k.keyName ++ " in step " ++ named s
  | notOneInvocation s n =>
    "Step " ++ named s ++ " must invoke exactly one task, found " ++ toString n
  | keywordsNotMapping s => "'kwargs' of step " ++ named s ++ " must be a mapping"
  | keywordNotText s k =>
    "Keyword argument names of step " ++ named s ++ " must be strings, found " ++ k.display
  | dependenciesNotNames s =>
    "Dependencies of step " ++ named s ++ " must be a step name or a list of step names"
  | malformedReference _ t => "Malformed reference " ++ named t
  | stepNameDotted s => "Step name " ++ named s ++ " must not contain '.'"
  | stepNamedLikeParameter s => "Step " ++ named s ++ " has the same name as a parameter"
  | unknownDependency s d => "Step " ++ named s ++ " depends on unknown step " ++ named d
  | dependsOnItself s => "Step " ++ named s ++ " depends on itself"
  | dependencyCycle ss => "Steps form a dependency cycle: " ++ String.intercalate ", " ss
  | noOrder s => "Cycle detected at step " ++ named s
  | unresolvedReference _ r => named r ++ " does not name a parameter or a step"
  | parameterHasNoFields _ r p =>
    named r ++ " refers to parameter " ++ named p ++ ", which has no fields"
  | ambiguousReference _ r t n =>
    named r ++ " is ambiguous: task " ++ named t ++ " declares " ++ toString n ++ " outputs"
  | undeclaredOutput _ r o t =>
    named r ++ " refers to output " ++ named o ++ ", which task " ++ named t ++
      " does not declare"

/-- The problem as it is shown. -/
def report (p : Problem) : Report := ⟨p.code, p.phase, p.message, p.step⟩

end Problem

end LabPlan
