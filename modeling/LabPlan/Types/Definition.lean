import LabPlan.Types.Error

/-! # Type definitions

A definition is written as nothing, or as a mapping with at most one of the keys `is_a`, `list`,
`tuple`, `mapping` and `union`.  The members of a structure or a union are type names or
definitions written in place.  Reading a definition settles its form; names are resolved later. -/

namespace LabPlan

mutual

/-- A definition as it is written. -/
inductive Definition where
  | simple (super : Option String)
  | list (element : Member)
  | tuple (elements : List Member)
  | fields (fields : List (String × Member))
  | keyed (key value : Member)
  | union (members : List Member)

/-- A member of a definition: the name of a type, or a definition in place. -/
inductive Member where
  | named (name : String)
  | inline (definition : Definition)

end

namespace Definition

def isSimple : Definition → Bool
  | simple _ => true
  | _ => false

/-- What a definition's mapping declares, its members still unread. -/
inductive Outline where
  | simple (super : Option Value)
  | list (element : Value)
  | tuple (elements : Value)
  | mapping (content : Value)
  | union (members : Value)

/-- The value that a definition is made of. -/
def Outline.content : Outline → Option Value
  | simple _ => none
  | list v | tuple v | mapping v | union v => some v

/-- The keys of a definition. -/
def isKnownKey (s : String) : Bool := ["is_a", "list", "tuple", "mapping", "union"].contains s

/-- Every key is a known one. -/
def checkKeys (name : Option String) : Entries → Except TypeError Unit
  | [] => .ok ()
  | (k, _) :: es =>
    match k.text? with
    | some s =>
      if isKnownKey s then checkKeys name es else .error (.malformed name (.unknownKey s))
    | none => .error (.malformed name .keyNotText)

/-- The structures that a mapping declares. -/
def structures (es : Entries) : List (Structure × Value) :=
  [Structure.list, Structure.tuple, Structure.mapping].filterMap fun s ↦
    (es.lookup s.key).map (s, ·)

def Outline.ofStructure : Structure → Value → Outline
  | .list, v => .list v
  | .tuple, v => .tuple v
  | .mapping, v => .mapping v

/-- The outline of a mapping's content, if no two of its keys exclude each other. -/
def outline (name : Option String) (es : Entries) : Except TypeError Outline := do
  checkKeys name es
  match structures es, es.lookup "union", es.lookup "is_a" with
  | s :: t :: more, _, _ => .error (.severalStructures ((s :: t :: more).map Prod.fst))
  | [(s, _)], some _, _ => .error (.unionWithStructure s)
  | [(s, _)], none, some _ => .error (.superOfStructured s.key)
  | [(s, v)], none, none => .ok (.ofStructure s v)
  | [], some _, some _ => .error (.superOfStructured "union")
  | [], some v, none => .ok (.union v)
  | [], none, isA => .ok (.simple isA)

theorem content_ofStructure (s : Structure) (v : Value) :
    (Outline.ofStructure s v).content = some v := by
  cases s <;> rfl

/-- What a definition is made of stands in its mapping. -/
theorem lookup_of_outline {name : Option String} {es : Entries} {o : Outline} {v : Value}
    (h : outline name es = .ok o) (hv : o.content = some v) : ∃ key, es.lookup key = some v := by
  unfold outline at h
  cases hk : checkKeys name es with
  | error e => simp [hk, bind, Except.bind] at h
  | ok u =>
    simp only [hk, bind, Except.bind] at h
    split at h
    · simp at h
    · simp at h
    · simp at h
    · rename_i s w hs _ _
      obtain rfl := Except.ok.inj h
      rw [content_ofStructure] at hv
      obtain rfl := Option.some.inj hv
      have : (s, w) ∈ structures es := by simp [hs]
      simp only [structures, List.mem_filterMap] at this
      obtain ⟨s', _, hs'⟩ := this
      refine ⟨s'.key, ?_⟩
      cases hl : es.lookup s'.key with
      | none => simp [hl] at hs'
      | some u => simp_all
    · simp at h
    · rename_i w _ hu _
      obtain rfl := Except.ok.inj h
      exact ⟨"union", hu.trans (congrArg some (Option.some.inj hv))⟩
    · obtain rfl := Except.ok.inj h
      simp [Outline.content] at hv

theorem sizeOf_content_lt {name : Option String} {es : Entries} {o : Outline} {v : Value}
    (h : outline name es = .ok o) (hv : o.content = some v) : sizeOf v < sizeOf es := by
  obtain ⟨key, hk⟩ := lookup_of_outline h hv
  exact Entries.sizeOf_lookup_lt hk

end Definition

mutual

/-- Read a definition; `name` is absent for a definition in place. -/
def Definition.ofValue (name : Option String) : Value → Except TypeError Definition
  | .null => .ok (.simple none)
  | .mapping es =>
    match _h : Definition.outline name es with
    | .error e => .error e
    | .ok (.simple none) => .ok (.simple none)
    | .ok (.simple (some (.string s))) => .ok (.simple (some s))
    | .ok (.simple (some _)) => .error (.malformed name .superNotName)
    | .ok (.list v) => (Member.ofValue name v).map .list
    | .ok (.tuple (.sequence vs)) => (Member.listOfValues name vs).map .tuple
    | .ok (.tuple _) => .error (.malformed name (.notListOfTypes "tuple"))
    | .ok (.union (.sequence vs)) =>
      match Member.listOfValues name vs with
      | .ok [] => .error (.malformed name .emptyUnion)
      | .ok ms => .ok (.union ms)
      | .error e => .error e
    | .ok (.union _) => .error (.malformed name (.notListOfTypes "union"))
    | .ok (.mapping (.mapping fs)) => (Member.fieldsOfEntries name fs).map .fields
    | .ok (.mapping (.sequence [k, v])) =>
      match Member.ofValue name k with
      | .error e => .error e
      | .ok key => (Member.ofValue name v).map (.keyed key)
    | .ok (.mapping _) => .error (.malformed name .mappingShape)
  | _ => .error (.malformed name .notMapping)
termination_by v => 2 * sizeOf v
decreasing_by
  all_goals
    have := Definition.sizeOf_content_lt _h rfl
    simp_all
    omega

/-- Read a member; `owner` is the type whose definition it belongs to. -/
def Member.ofValue (owner : Option String) : Value → Except TypeError Member
  | .string s => .ok (.named s)
  | .mapping es =>
    match Definition.ofValue none (.mapping es) with
    | .error e => .error e
    | .ok d => if d.isSimple then .error .anonymousSimple else .ok (.inline d)
  | .null => .error .anonymousSimple
  | _ => .error (.malformed owner .memberNotType)
termination_by v => 2 * sizeOf v + 1

def Member.listOfValues (owner : Option String) : List Value → Except TypeError (List Member)
  | [] => .ok []
  | v :: vs =>
    match Member.ofValue owner v with
    | .error e => .error e
    | .ok m => (Member.listOfValues owner vs).map (m :: ·)
termination_by vs => 2 * sizeOf vs

def Member.fieldsOfEntries (owner : Option String) :
    Entries → Except TypeError (List (String × Member))
  | [] => .ok []
  | (k, v) :: es =>
    match k.text? with
    | none => .error (.malformed owner .fieldNotText)
    | some field =>
      match Member.ofValue owner v with
      | .error e => .error e
      | .ok m => (Member.fieldsOfEntries owner es).map ((field, m) :: ·)
termination_by es => 2 * sizeOf es

end

end LabPlan
