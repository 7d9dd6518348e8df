import LabPlan.Types.Registry

/-! # What declarations mean

A definition mentions names, and describes a type once it is known what those names stand for.
Declarations have a meaning when everything that is mentioned is declared or built in, when nothing
is mentioned by way of itself, when super-types are simple and when keys are strings or integers. -/

namespace LabPlan

mutual

/-- The names in a definition, its super-type included, from left to right. -/
def Definition.mentions : Definition → List String
  | .simple super => super.toList
  | .list m => m.mentions
  | .tuple ms | .union ms => Member.mentionsAll ms
  | .fields fs => Member.mentionsFields fs
  | .keyed k v => k.mentions ++ v.mentions
termination_by structural d => d

def Member.mentions : Member → List String
  | .named n => [n]
  | .inline d => d.mentions
termination_by structural m => m

def Member.mentionsAll : List Member → List String
  | [] => []
  | m :: ms => m.mentions ++ Member.mentionsAll ms
termination_by structural ms => ms

def Member.mentionsFields : List (String × Member) → List String
  | [] => []
  | f :: fs => Member.mentionsField f ++ Member.mentionsFields fs
termination_by structural fs => fs

def Member.mentionsField : String × Member → List String
  | (_, m) => m.mentions
termination_by structural f => f

end

mutual

/-- The key members of all mappings in a definition. -/
def Definition.keys : Definition → List Member
  | .simple _ => []
  | .list m => m.keys
  | .tuple ms | .union ms => Member.keysAll ms
  | .fields fs => Member.keysFields fs
  | .keyed k v => k :: (k.keys ++ v.keys)
termination_by structural d => d

def Member.keys : Member → List Member
  | .named _ => []
  | .inline d => d.keys
termination_by structural m => m

def Member.keysAll : List Member → List Member
  | [] => []
  | m :: ms => m.keys ++ Member.keysAll ms
termination_by structural ms => ms

def Member.keysFields : List (String × Member) → List Member
  | [] => []
  | f :: fs => Member.keysField f ++ Member.keysFields fs
termination_by structural fs => fs

def Member.keysField : String × Member → List Member
  | (_, m) => m.keys
termination_by structural f => f

end

mutual

/-- The super-types in a definition and the definitions in place. -/
def Definition.supers : Definition → List String
  | .simple super => super.toList
  | .list m => m.supers
  | .tuple ms | .union ms => Member.supersAll ms
  | .fields fs => Member.supersFields fs
  | .keyed k v => k.supers ++ v.supers
termination_by structural d => d

def Member.supers : Member → List String
  | .named _ => []
  | .inline d => d.supers
termination_by structural m => m

def Member.supersAll : List Member → List String
  | [] => []
  | m :: ms => m.supers ++ Member.supersAll ms
termination_by structural ms => ms

def Member.supersFields : List (String × Member) → List String
  | [] => []
  | f :: fs => Member.supersField f ++ Member.supersFields fs
termination_by structural fs => fs

def Member.supersField : String × Member → List String
  | (_, m) => m.supers
termination_by structural f => f

end

mutual

/-- The type that a definition describes under a name, where `types` tells what names stand for. -/
def Definition.type? (types : String → Option Ty) (name : Option String) : Definition → Option Ty
  | .simple none => some (.simple name none)
  | .simple (some s) => (types s).map fun t ↦ .simple name (some t)
  | .list m => (m.type? types).map (.list name)
  | .tuple ms => (Member.typesAll types ms).map (.tuple name)
  | .union ms => (Member.typesAll types ms).map (.union name)
  | .fields fs => (Member.typesFields types fs).map (.fields name)
  | .keyed k v => (k.type? types).bind fun s ↦ (v.type? types).map (.keyed name s)
termination_by structural d => d

def Member.type? (types : String → Option Ty) : Member → Option Ty
  | .named n => types n
  | .inline d => d.type? types none
termination_by structural m => m

def Member.typesAll (types : String → Option Ty) : List Member → Option (List Ty)
  | [] => some []
  | m :: ms => (m.type? types).bind fun t ↦ (Member.typesAll types ms).map (t :: ·)
termination_by structural ms => ms

def Member.typesFields (types : String → Option Ty) :
    List (String × Member) → Option (List (String × Ty))
  | [] => some []
  | f :: fs => (Member.typesField types f).bind fun t ↦ (Member.typesFields types fs).map (t :: ·)
termination_by structural fs => fs

def Member.typesField (types : String → Option Ty) : String × Member → Option (String × Ty)
  | (n, m) => (m.type? types).map (n, ·)
termination_by structural f => f

end

namespace Registry

/-- The name is declared. -/
def IsDeclared (decls : Declarations) (n : String) : Prop := n ∈ decls.map Prod.fst

/-- The definition of one declared name mentions another one. -/
def Mentions (decls : Declarations) (m n : String) : Prop :=
  IsDeclared decls n ∧ ∃ d, decls.lookup m = some d ∧ n ∈ d.mentions

/-- A mapping declares names: its keys, every one a plain string that is not built in, with the
definitions that are read under them. -/
inductive Declares : Entries → Declarations → Prop
  | nil : Declares [] []
  | cons {n : String} {v : Value} {d : Definition} {es : Entries} {decls : Declarations} :
    isBuiltinName n = false → Definition.ofValue (some n) v = .ok d → Declares es decls →
    Declares ((.string n, v) :: es) ((n, d) :: decls)

/-- Declarations have a meaning. -/
structure IsMeaningful (decls : Declarations) : Prop where
  /-- What is mentioned is built in or declared. -/
  known {n : String} {d : Definition} : decls.lookup n = some d →
    ∀ m ∈ d.mentions, isBuiltinName m = true ∨ IsDeclared decls m
  /-- Nothing is mentioned by way of itself. -/
  acyclic (n : String) : ¬ Relation.TransGen (Mentions decls) n n
  /-- Super-types are built in or simple by their own definitions. -/
  supers {n : String} {d : Definition} : decls.lookup n = some d →
    ∀ s ∈ d.supers, isBuiltinName s = true ∨ ∃ u, decls.lookup s = some (.simple u)
  /-- Keys are strings or integers. -/
  keys {n : String} {d : Definition} : decls.lookup n = some d →
    ∀ k ∈ d.keys, k = .named "string" ∨ k = .named "integer"

/-- A registry gives declarations their meaning. -/
structure IsRegistryOf (decls : Declarations) (r : Registry) : Prop where
  /-- No name is registered twice. -/
  nodup : (r.types.map Prod.fst).Nodup
  /-- The names are the declared ones and the built-in ones. -/
  names (n : String) : n ∈ r.types.map Prod.fst ↔ IsDeclared decls n ∨ isBuiltinName n = true
  builtin (b : Builtin) : r.get? b.name = some (.ofBuiltin b)
  /-- A declared name has the type that its definition describes, where every name in it stands
  for its own type in the registry. -/
  declared {n : String} {d : Definition} : decls.lookup n = some d →
    ∃ t, r.get? n = some t ∧ t.name = some n ∧ d.type? r.get? (some n) = some t

end Registry

end LabPlan
