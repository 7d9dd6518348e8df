import LabPlan.Types.Definition
import LabPlan.Yaml.Reading

/-! # The registry of types

A registry holds the declared types and the built-in ones, every name in a definition replaced by
the type it stands for.  Names are resolved on demand, depth first: the *known* types are those
already resolved, and the *path* is the chain of names being resolved, outermost first.  A name met
again on the path closes a cycle.  Each step down adds a declared name to the path, so the names
not on it bound the depth. -/

namespace LabPlan

/-- Declarations in the order in which they are written. -/
abbrev Declarations := List (String × Definition)

/-- Types under their names. -/
abbrev Known := List (String × Ty)

/-- A table of named types. -/
structure Registry where
  types : Known

namespace Registry

/-- The built-in types. -/
def builtinTypes : Known := Builtin.all.map fun b ↦ (b.name, Ty.ofBuiltin b)

/-- The registry without declarations. -/
def builtin : Registry := ⟨builtinTypes⟩

/-- The declared names that are not on the path. -/
def ahead (decls : Declarations) (path : List String) : Nat :=
  (decls.filter fun d ↦ !path.contains d.1).length

theorem mem_of_lookup {α : Type} {name : String} {ds : List (String × α)} {d : α}
    (h : ds.lookup name = some d) : (name, d) ∈ ds := by
  induction ds with
  | nil => simp at h
  | cons e es ih =>
    obtain ⟨n, x⟩ := e
    rw [List.lookup_cons] at h
    split at h
    · simp_all
    · exact List.mem_cons_of_mem _ (ih h)

/-- A step down to a declared name leaves fewer names ahead. -/
theorem ahead_append_lt {decls : Declarations} {path : List String} {name : String}
    {d : Definition} (h : decls.lookup name = some d) (hp : path.contains name = false) :
    ahead decls (path ++ [name]) < ahead decls path := by
  unfold ahead
  rw [← List.countP_eq_length_filter, ← List.countP_eq_length_filter]
  have hm := mem_of_lookup h
  have hle (ds : Declarations) : ds.countP (fun d ↦ !(path ++ [name]).contains d.1) ≤
      ds.countP (fun d ↦ !path.contains d.1) := by
    apply List.countP_mono_left
    intro e _
    simp +contextual
  clear h
  induction decls with
  | nil => simp at hm
  | cons e es ih =>
    rw [List.countP_cons, List.countP_cons]
    rcases List.mem_cons.1 hm with rfl | hm
    · have := hle es
      have hr : (!path.contains name) = true := by rw [hp]; rfl
      rw [if_neg (by simp), if_pos hr]
      omega
    · have := ih hm
      have : (if (!(path ++ [name]).contains e.1) = true then 1 else 0) ≤
          (if (!path.contains e.1) = true then 1 else 0) := by
        split <;> simp_all
      omega

mutual

/-- The type of a name, with the known types after it. -/
def resolve (decls : Declarations) (path : List String) (known : Known) (name : String) :
    Except TypeError (Ty × Known) :=
  match known.lookup name with
  | some t => .ok (t, known)
  | none =>
    match _hp : path.contains name with
    | true => .error (.cycle (path.dropWhile (· != name) ++ [name]))
    | false =>
      match _h : decls.lookup name with
      | none => .error (.notFound name)
      | some d =>
        match build decls (path ++ [name]) known (some name) d with
        | .error e => .error e
        | .ok (t, known) => .ok (t, (name, t) :: known)
termination_by (ahead decls path, 0)
decreasing_by exact Prod.Lex.left _ _ (ahead_append_lt _h _hp)

/-- The type of a member. -/
def resolveMember (decls : Declarations) (path : List String) (known : Known) :
    Member → Except TypeError (Ty × Known)
  | .named name => resolve decls path known name
  | .inline d => build decls path known none d
termination_by m => (ahead decls path, sizeOf m)

/-- The types of members, one after the other. -/
def resolveMembers (decls : Declarations) (path : List String) (known : Known) :
    List Member → Except TypeError (List Ty × Known)
  | [] => .ok ([], known)
  | m :: ms =>
    match resolveMember decls path known m with
    | .error e => .error e
    | .ok (t, known) =>
      match resolveMembers decls path known ms with
      | .error e => .error e
      | .ok (ts, known) => .ok (t :: ts, known)
termination_by ms => (ahead decls path, sizeOf ms)

/-- The types of fields, one after the other. -/
def resolveFields (decls : Declarations) (path : List String) (known : Known) :
    List (String × Member) → Except TypeError (List (String × Ty) × Known)
  | [] => .ok ([], known)
  | (field, m) :: fs =>
    match resolveMember decls path known m with
    | .error e => .error e
    | .ok (t, known) =>
      match resolveFields decls path known fs with
      | .error e => .error e
      | .ok (ts, known) => .ok ((field, t) :: ts, known)
termination_by fs => (ahead decls path, sizeOf fs)

/-- The type that a definition describes, under a name if it has one. -/
def build (decls : Declarations) (path : List String) (known : Known) (name : Option String) :
    Definition → Except TypeError (Ty × Known)
  | .simple none => .ok (.simple name none, known)
  | .simple (some super) =>
    match resolve decls path known super with
    | .error e => .error e
    | .ok (s, known) =>
      if s.isSimple then .ok (.simple name (some s), known) else .error (.superNotSimple super)
  | .list m =>
    match resolveMember decls path known m with
    | .error e => .error e
    | .ok (t, known) => .ok (.list name t, known)
  | .tuple ms =>
    match resolveMembers decls path known ms with
    | .error e => .error e
    | .ok (ts, known) => .ok (.tuple name ts, known)
  | .fields fs =>
    match resolveFields decls path known fs with
    | .error e => .error e
    | .ok (ts, known) => .ok (.fields name ts, known)
  | .keyed k v =>
    match resolveMember decls path known k with
    | .error e => .error e
    | .ok (key, known) =>
      if key.builtin? == some .string || key.builtin? == some .integer then
        match resolveMember decls path known v with
        | .error e => .error e
        | .ok (value, known) => .ok (.keyed name key value, known)
      else .error (.invalidKey key)
  | .union ms =>
    match resolveMembers decls path known ms with
    | .error e => .error e
    | .ok (ts, known) => .ok (.union name ts, known)
termination_by d => (ahead decls path, sizeOf d)

end

/-- Resolve names one after the other. -/
def resolveAll (decls : Declarations) : Known → List String → Except TypeError Known
  | known, [] => .ok known
  | known, name :: names =>
    match resolve decls [] known name with
    | .error e => .error e
    | .ok (_, known) => resolveAll decls known names

/-- Read the declarations of a mapping: every key a plain string that is not built in. -/
def declarations : Entries → Except TypeError Declarations
  | [] => .ok []
  | (.string name, v) :: es =>
    if isBuiltinName name then .error (.builtinRedefined name)
    else
      match Definition.ofValue (some name) v with
      | .error e => .error e
      | .ok d => (declarations es).map ((name, d) :: ·)
  | (.null, v) :: _ =>
    match Definition.ofValue none v with
    | .error e => .error e
    | .ok d =>
      if d.isSimple then .error .anonymousSimple else .error (.malformed none .topLevelUnnamed)
  | _ => .error (.malformed none .nameNotText)

/-- The registry of a mapping of declarations. -/
def ofEntries (es : Entries) : Except TypeError Registry :=
  match declarations es with
  | .error e => .error e
  | .ok decls => (resolveAll decls builtinTypes (decls.map Prod.fst)).map Registry.mk

/-- The registry of a text: a mapping of declarations, or nothing. -/
def ofText (text : String) : Except TypeError Registry :=
  match Yaml.read? text with
  | none => .error (.malformed none .unreadableText)
  | some .null => .ok builtin
  | some (.mapping es) => ofEntries es
  | some _ => .error (.malformed none .declarationsNotMapping)

/-- The type of a name. -/
def get? (r : Registry) (name : String) : Option Ty := r.types.lookup name

def contains (r : Registry) (name : String) : Bool := (r.get? name).isSome

/-- How many types are registered. -/
def size (r : Registry) : Nat := r.types.length

/-- The registered names in increasing order. -/
def names (r : Registry) : List String := (r.types.map Prod.fst).mergeSort fun a b ↦ a ≤ b

/-- Why a type text was refused, if it was. -/
def check (text : String) : Option String :=
  match ofText text with
  | .ok _ => none
  | .error e => some e.message

end Registry

end LabPlan
