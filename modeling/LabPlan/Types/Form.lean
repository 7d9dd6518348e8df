import LabPlan.Types.Definition

/-! # The form of definitions

How a definition is written, and which definitions can be written: a definition in place is never
simple, a union has members, and no field comes twice. -/

namespace LabPlan

mutual

/-- A definition as it is written. -/
def Definition.toValue : Definition → Value
  | .simple none => .null
  | .simple (some s) => .mapping [(.string "is_a", .string s)]
  | .list m => .mapping [(.string "list", m.toValue)]
  | .tuple ms => .mapping [(.string "tuple", .sequence (Member.toValues ms))]
  | .fields fs => .mapping [(.string "mapping", .mapping (Member.toEntries fs))]
  | .keyed k v => .mapping [(.string "mapping", .sequence [k.toValue, v.toValue])]
  | .union ms => .mapping [(.string "union", .sequence (Member.toValues ms))]
termination_by structural d => d

/-- A member as it is written: a name by itself. -/
def Member.toValue : Member → Value
  | .named n => .string n
  | .inline d => d.toValue
termination_by structural m => m

def Member.toValues : List Member → List Value
  | [] => []
  | m :: ms => m.toValue :: Member.toValues ms
termination_by structural ms => ms

def Member.toEntries : List (String × Member) → Entries
  | [] => []
  | f :: fs => Member.toEntry f :: Member.toEntries fs
termination_by structural fs => fs

def Member.toEntry : String × Member → Value × Value
  | (n, m) => (.string n, m.toValue)
termination_by structural f => f

end

theorem Member.toValues_eq (ms : List Member) : Member.toValues ms = ms.map Member.toValue := by
  induction ms with
  | nil => rfl
  | cons m ms ih => rw [Member.toValues, ih, List.map_cons]

theorem Member.toEntries_eq (fs : List (String × Member)) :
    Member.toEntries fs = fs.map fun f ↦ (.string f.1, f.2.toValue) := by
  induction fs with
  | nil => rfl
  | cons f fs ih => rw [Member.toEntries, ih, List.map_cons, Member.toEntry]

mutual

/-- The definition can be written. -/
def Definition.isWellFormed : Definition → Bool
  | .simple _ => true
  | .list m => m.isWellFormed
  | .tuple ms => Member.areWellFormed ms
  | .fields fs => decide (fs.map Prod.fst).Nodup && Member.fieldsWellFormed fs
  | .keyed k v => k.isWellFormed && v.isWellFormed
  | .union ms => !ms.isEmpty && Member.areWellFormed ms
termination_by structural d => d

/-- A member can be written: a definition in place is not simple. -/
def Member.isWellFormed : Member → Bool
  | .named _ => true
  | .inline d => !d.isSimple && d.isWellFormed
termination_by structural m => m

def Member.areWellFormed : List Member → Bool
  | [] => true
  | m :: ms => m.isWellFormed && Member.areWellFormed ms
termination_by structural ms => ms

def Member.fieldsWellFormed : List (String × Member) → Bool
  | [] => true
  | f :: fs => Member.fieldWellFormed f && Member.fieldsWellFormed fs
termination_by structural fs => fs

def Member.fieldWellFormed : String × Member → Bool
  | (_, m) => m.isWellFormed
termination_by structural f => f

end

theorem Member.areWellFormed_eq (ms : List Member) :
    Member.areWellFormed ms = ms.all Member.isWellFormed := by
  induction ms with
  | nil => rfl
  | cons m ms ih => rw [Member.areWellFormed, ih, List.all_cons]

theorem Member.fieldsWellFormed_eq (fs : List (String × Member)) :
    Member.fieldsWellFormed fs = fs.all fun f ↦ f.2.isWellFormed := by
  induction fs with
  | nil => rfl
  | cons f fs ih => rw [Member.fieldsWellFormed, ih, List.all_cons, Member.fieldWellFormed]

end LabPlan
