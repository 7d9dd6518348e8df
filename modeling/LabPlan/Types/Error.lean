import LabPlan.Types.Basic

/-! # Errors of type declarations -/

namespace LabPlan

/-- The three ways in which a type can be structured, in the order in which they are looked for. -/
inductive Structure where
  | list
  | tuple
  | mapping
deriving DecidableEq, Repr

/-- The key that declares a structure. -/
def Structure.key : Structure → String
  | list => "list"
  | tuple => "tuple"
  | mapping => "mapping"

/-- Why a definition has no meaning at all. -/
inductive Malformation where
  | unreadableText
  | declarationsNotMapping
  | topLevelUnnamed
  | nameNotText
  | notMapping
  | unknownKey (key : String)
  | keyNotText
  | emptyUnion
  | superNotName
  | notListOfTypes (key : String)
  | memberNotType
  | fieldNotText
  | mappingShape
deriving DecidableEq, Repr

def Malformation.message : Malformation → String
  | unreadableText => "invalid YAML: ..."
  | declarationsNotMapping => "type declarations must be a mapping"
  | topLevelUnnamed => "top-level types must be named"
  | nameNotText => "type names must be strings"
  | notMapping => "definition must be a mapping or null"
  | unknownKey k => "unknown key '" ++ k ++ "'"
  | keyNotText => "definition keys must be strings"
  | emptyUnion => "union must have at least one member"
  | superNotName => "'is_a' must name a type"
  | notListOfTypes k => "'" ++ k ++ "' must be a list of types"
  | memberNotType => "member types must be type names or inline definitions"
  | fieldNotText => "mapping field names must be strings"
  | mappingShape => "'mapping' must be a field mapping or a [key_type, value_type] pair"

/-- What can be wrong with type declarations. -/
inductive TypeError where
  | notFound (name : String)
  /-- The names from one type back to itself, both ends included. -/
  | cycle (path : List String)
  | builtinRedefined (name : String)
  | invalidKey (key : Ty)
  | superNotSimple (name : String)
  /-- A super-type beside a structure or a union, by its key. -/
  | superOfStructured (key : String)
  | severalStructures (found : List Structure)
  | unionWithStructure (found : Structure)
  | anonymousSimple
  | malformed (type : Option String) (reason : Malformation)
deriving Repr

/-- The wording of an error. -/
def TypeError.message : TypeError → String
  | notFound n => "Type '" ++ n ++ "' is not defined"
  | cycle path => "Type reference cycle: " ++ String.intercalate " -> " path
  | builtinRedefined n => "Built-in type '" ++ n ++ "' cannot be redefined"
  | invalidKey t =>
    "Invalid mapping key type '" ++ t.display ++ "': must be 'string' or 'integer'"
  | superNotSimple n => "Super-type '" ++ n ++ "' of a simple type must itself be a simple type"
  | superOfStructured k =>
    "Only simple types may declare a super-type (found 'is_a' with " ++ k ++ ")"
  | severalStructures found =>
    "A type may have at most one structure, found: " ++
      String.intercalate ", " (found.map Structure.key)
  | unionWithStructure s => "A union type cannot also be a " ++ s.key
  | anonymousSimple => "Anonymous types must be structured or union types"
  | malformed type reason =>
    "Malformed definition for type " ++ type.getD "<anonymous>" ++ ": " ++ reason.message

end LabPlan
