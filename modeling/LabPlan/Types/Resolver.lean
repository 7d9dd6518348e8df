import LabPlan.Types.Registry
import Mathlib.Logic.Relation

/-! # Resolution step by step

Resolution as a machine that keeps one table and one stack of names and changes them as it goes.  A
name that has to be resolved is put on the stack; when its definition has been built the name is
taken off again, and its type is put into the table.  Where resolution fails, names stay on the
stack.  What a call is made for is kept in frames: what comes back to a frame is a type, or a failure
that it passes on. -/

namespace LabPlan

namespace Resolver

/-- What resolution changes as it goes. -/
structure State where
  /-- The types that are known. -/
  resolved : Known
  /-- The names that are being resolved, the outermost first. -/
  resolving : List String

/-- What can be asked of resolution: the type of a name, or the type that a definition describes,
under a name if it has one. -/
inductive Call where
  | resolve (name : String)
  | build (type : Option String) (d : Definition)

/-- The type of a member is asked for by its name, or by its definition in place. -/
def Call.ofMember : Member → Call
  | .named n => .resolve n
  | .inline d => .build none d

/-- What a type is wanted for. -/
inductive Frame where
  /-- It is the type of this name. -/
  | register (name : String)
  /-- It is the super-type, by this name, of a simple type. -/
  | super (type : Option String) (name : String)
  /-- It is the element of a list. -/
  | list (type : Option String)
  /-- It comes after other members of a tuple or a union, and these are still to come. -/
  | members (make : List Ty → Ty) (before : List Ty) (rest : List Member)
  /-- It is the type of a field; it comes after other fields, and these are still to come. -/
  | fields (type : Option String) (before : List (String × Ty)) (field : String)
    (rest : List (String × Member))
  /-- It is the key of a mapping with these values. -/
  | key (type : Option String) (value : Member)
  /-- It is the value of a mapping with this key. -/
  | value (type : Option String) (key : Ty)
  /-- It is the type of a declared name, and these names are still to come. -/
  | next (names : List String)

/-- Where the machine stands: at a call, at a type that comes back or at a failure, with the frames
that wait for it, the innermost first; or at the end. -/
inductive Config where
  | call (c : Call) (s : State) (k : List Frame)
  | back (t : Ty) (s : State) (k : List Frame)
  | failed (e : TypeError) (s : State) (k : List Frame)
  | done (known : Known)

/-- Go on with the members of a tuple or a union. -/
def membersStep (make : List Ty → Ty) (before : List Ty) (rest : List Member) (s : State)
    (k : List Frame) : Config :=
  match rest with
  | [] => .back (make before) s k
  | m :: ms => .call (.ofMember m) s (.members make before ms :: k)

/-- Go on with the fields of a mapping. -/
def fieldsStep (type : Option String) (before : List (String × Ty))
    (rest : List (String × Member)) (s : State) (k : List Frame) : Config :=
  match rest with
  | [] => .back (.fields type before) s k
  | (field, m) :: fs => .call (.ofMember m) s (.fields type before field fs :: k)

/-- Go on with the declared names. -/
def namesStep (names : List String) (s : State) (k : List Frame) : Config :=
  match names with
  | [] => .done s.resolved
  | n :: ns => .call (.resolve n) s (.next ns :: k)

/-- A name is known; or it is on the stack already, which makes a cycle; or it is put on the stack,
and its definition is built. -/
def resolveStep (decls : Declarations) (name : String) (s : State) (k : List Frame) :
    Config :=
  match s.resolved.lookup name with
  | some t => .back t s k
  | none =>
    if s.resolving.contains name then
      .failed (.cycle (s.resolving.dropWhile (· != name) ++ [name])) s k
    else
      match decls.lookup name with
      | none => .failed (.notFound name) s k
      | some d =>
        .call (.build (some name) d) ⟨s.resolved, s.resolving ++ [name]⟩ (.register name :: k)

/-- A definition is built from its parts, beginning with the first one. -/
def buildStep (type : Option String) (s : State) (k : List Frame) : Definition → Config
  | .simple none => .back (.simple type none) s k
  | .simple (some n) => .call (.resolve n) s (.super type n :: k)
  | .list m => .call (.ofMember m) s (.list type :: k)
  | .tuple ms => membersStep (.tuple type) [] ms s k
  | .union ms => membersStep (.union type) [] ms s k
  | .fields fs => fieldsStep type [] fs s k
  | .keyed m v => .call (.ofMember m) s (.key type v :: k)

/-- A type comes back to a frame. -/
def backStep (t : Ty) (s : State) (k : List Frame) : Frame → Config
  | .register name => .back t ⟨(name, t) :: s.resolved, s.resolving.dropLast⟩ k
  | .super type n =>
    if t.isSimple then .back (.simple type (some t)) s k else .failed (.superNotSimple n) s k
  | .list type => .back (.list type t) s k
  | .members make before rest => membersStep make (before ++ [t]) rest s k
  | .fields type before field rest => fieldsStep type (before ++ [(field, t)]) rest s k
  | .key type v =>
    if t.builtin? == some .string || t.builtin? == some .integer then
      .call (.ofMember v) s (.value type t :: k)
    else .failed (.invalidKey t) s k
  | .value type key => .back (.keyed type key t) s k
  | .next names => namesStep names s k

/-- One step; none at the end. -/
def step (decls : Declarations) : Config → Option Config
  | .call (.resolve n) s k => some (resolveStep decls n s k)
  | .call (.build type d) s k => some (buildStep type s k d)
  | .back t s (f :: k) => some (backStep t s k f)
  | .failed e s (_ :: k) => some (.failed e s k)
  | .back _ _ [] | .failed _ _ [] | .done _ => none

/-- The machine gets from one place to another; there is at most one way on from each. -/
def Steps (decls : Declarations) : Config → Config → Prop :=
  Relation.ReflTransGen fun c c' ↦ step decls c = some c'

/-- The machine at the beginning: the built-in types are known, nothing is on the stack, and every
declared name is to be resolved. -/
def start (decls : Declarations) : Config :=
  namesStep (decls.map Prod.fst) ⟨Registry.builtinTypes, []⟩ []

end Resolver

end LabPlan
