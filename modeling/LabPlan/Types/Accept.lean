import LabPlan.Types.Basic

/-! # Values of a type

A simple type takes what its nearest built-in super-type takes; a simple type without one is a bare
name and takes everything.  Values are looked at through their tags. -/

namespace LabPlan.Ty

/-- The nearest built-in type among the type and its super-types. -/
def nearestBuiltin? (t : Ty) : Option Builtin := t.ancestors.findSome? builtin?

mutual

/-- The value has the type. -/
def accepts : Ty → Value → Bool
  | simple n s, v =>
    match (simple n s).nearestBuiltin? with
    | some b => b.accepts v
    | none => true
  | list _ t, v =>
    match v.items? with
    | some vs => vs.all fun w ↦ accepts t w
    | none => false
  | tuple _ ts, v =>
    match v.items? with
    | some vs => acceptsEach ts vs
    | none => false
  | fields _ fs, v =>
    match v.entries? with
    | some es => es.length == fs.length && acceptsFields fs es
    | none => false
  | keyed _ k t, v =>
    match v.entries? with
    | some es => es.all fun e ↦ accepts k e.1 && accepts t e.2
    | none => false
  | union _ ms, v => acceptsAny ms v
termination_by structural t => t

/-- Item by item, as many items as types. -/
def acceptsEach : List Ty → List Value → Bool
  | [], [] => true
  | t :: ts, v :: vs => accepts t v && acceptsEach ts vs
  | _, _ => false
termination_by structural ts => ts

/-- Some type takes the value. -/
def acceptsAny : List Ty → Value → Bool
  | [], _ => false
  | t :: ts, v => accepts t v || acceptsAny ts v
termination_by structural ts => ts

/-- Every field is there, with a value of its type. -/
def acceptsFields : List (String × Ty) → Entries → Bool
  | [], _ => true
  | f :: fs, es => acceptsField f es && acceptsFields fs es
termination_by structural fs => fs

def acceptsField : String × Ty → Entries → Bool
  | (n, t), es =>
    match Entries.lookup n es with
    | some v => accepts t v
    | none => false
termination_by structural f => f

end

theorem acceptsEach_eq (ts : List Ty) (vs : List Value) :
    acceptsEach ts vs = (ts.length == vs.length && (ts.zip vs).all fun p ↦ accepts p.1 p.2) := by
  induction ts generalizing vs with
  | nil => cases vs <;> simp [acceptsEach]
  | cons t ts ih =>
    cases vs with
    | nil => simp [acceptsEach]
    | cons v vs =>
      rw [acceptsEach, ih]
      simp [Bool.and_left_comm]

theorem acceptsAny_eq (ts : List Ty) (v : Value) :
    acceptsAny ts v = ts.any fun t ↦ accepts t v := by
  induction ts with
  | nil => rfl
  | cons t ts ih => rw [acceptsAny, ih, List.any_cons]

theorem accepts_union_iff {n : Option String} {ts : List Ty} {v : Value} :
    (union n ts).accepts v = true ↔ ∃ t ∈ ts, t.accepts v = true := by
  rw [accepts, acceptsAny_eq, List.any_eq_true]

theorem acceptsFields_eq (fs : List (String × Ty)) (es : Entries) :
    acceptsFields fs es = fs.all fun f ↦ (Entries.lookup f.1 es).any (accepts f.2) := by
  induction fs with
  | nil => rfl
  | cons f fs ih =>
    rw [acceptsFields, ih, List.all_cons, acceptsField]
    cases Entries.lookup f.1 es <;> rfl

end LabPlan.Ty
