import LabPlan.Value.Basic

/-! # Types of plugin parameters

A type is simple, a structure of other types, or a union of them.  Simple types are nominal and may
have a super-type; structures and unions may be anonymous.  Six simple types are built in. -/

namespace LabPlan

/-- The built-in simple types. -/
inductive Builtin where
  | any
  | number
  | integer
  | boolean
  | string
  | null
deriving DecidableEq, Repr

namespace Builtin

def name : Builtin → String
  | any => "any"
  | number => "number"
  | integer => "integer"
  | boolean => "boolean"
  | string => "string"
  | null => "null"

/-- Every built-in type, a super-type before the types below it. -/
def all : List Builtin := [any, number, integer, boolean, string, null]

/-- The super-type of a built-in type. -/
def super? : Builtin → Option Builtin
  | any => none
  | integer => some number
  | _ => some any

/-- The built-in type of a name. -/
def ofName? (s : String) : Option Builtin := all.find? (·.name == s)

@[simp] theorem ofName?_name (b : Builtin) : ofName? b.name = some b := by
  cases b <;> decide

/-- Which values a built-in type takes, tags left aside. -/
def accepts : Builtin → Value → Bool
  | any, _ => true
  | number, v => v.isNumber
  | integer, v => v.isInteger
  | boolean, v => v.isBool
  | string, v => v.isString
  | null, v => v.isNull

end Builtin

/-- The name belongs to a built-in type. -/
def isBuiltinName (s : String) : Bool := (Builtin.ofName? s).isSome

/-- A type.  Each kind has an optional name. -/
inductive Ty where
  | simple (name : Option String) (super : Option Ty)
  | list (name : Option String) (element : Ty)
  | tuple (name : Option String) (elements : List Ty)
  /-- A mapping with exactly these fields. -/
  | fields (name : Option String) (fields : List (String × Ty))
  /-- A mapping with keys of one type and values of another. -/
  | keyed (name : Option String) (key value : Ty)
  | union (name : Option String) (members : List Ty)
deriving Repr, Inhabited

namespace Ty

def name : Ty → Option String
  | simple n _ | list n _ | tuple n _ | fields n _ | keyed n _ _ | union n _ => n

/-- The built-in type of all values. -/
def any : Ty := simple (some "any") none

/-- The built-in type of all numbers. -/
def number : Ty := simple (some "number") (some any)

/-- A built-in type as a type. -/
def ofBuiltin : Builtin → Ty
  | .any => any
  | .number => number
  | .integer => simple (some "integer") (some number)
  | b => simple (some b.name) (some any)

theorem name_ofBuiltin (b : Builtin) : (ofBuiltin b).name = some b.name := by
  cases b <;> rfl

def super? : Ty → Option Ty
  | simple _ s => s
  | _ => none

/-- The types that a type is directly made of: its super-type, its key and value, or its members in
order. -/
def parts : Ty → List Ty
  | simple _ s => s.toList
  | list _ t => [t]
  | tuple _ ts | union _ ts => ts
  | fields _ fs => fs.map Prod.snd
  | keyed _ k v => [k, v]

def isSimple : Ty → Bool
  | simple _ _ => true
  | _ => false

/-- The built-in type that a simple type is, going by its name. -/
def builtin? : Ty → Option Builtin
  | simple (some n) _ => Builtin.ofName? n
  | _ => none

def isBuiltin (t : Ty) : Bool := t.builtin?.isSome

def isNamed (t : Ty) (s : String) : Bool := t.name == some s

/-- The type with its super-types, nearest first. -/
def ancestors : Ty → List Ty
  | simple n (some s) => simple n (some s) :: ancestors s
  | t => [t]
termination_by structural t => t

mutual

/-- A type by its name, an anonymous type by its structure. -/
def display : Ty → String
  | simple n _ => n.getD "<anonymous>"
  | list n t => n.getD ("list[" ++ display t ++ "]")
  | tuple n ts => n.getD ("tuple[" ++ String.intercalate ", " (displayAll ts) ++ "]")
  | fields n fs =>
    n.getD ("\x7b" ++ String.intercalate ", " (displayFields fs) ++ "\x7d")
  | keyed n k v => n.getD ("mapping[" ++ display k ++ ", " ++ display v ++ "]")
  | union n ts => n.getD ("union[" ++ String.intercalate ", " (displayAll ts) ++ "]")
termination_by structural t => t

def displayAll : List Ty → List String
  | [] => []
  | t :: ts => display t :: displayAll ts
termination_by structural ts => ts

def displayFields : List (String × Ty) → List String
  | [] => []
  | f :: fs => displayField f :: displayFields fs
termination_by structural fs => fs

def displayField : String × Ty → String
  | (n, t) => n ++ ": " ++ display t
termination_by structural f => f

end

end Ty

end LabPlan
