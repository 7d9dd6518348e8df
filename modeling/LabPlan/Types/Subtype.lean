import LabPlan.Types.Basic

/-! # Equality and subtyping of types

Named types are the same when their names are; anonymous types are compared by structure.
Subtyping first looks for the same type and for `any`, then takes unions apart, the left one
first, and then compares simple types along the super-types and structures part by part. -/

namespace LabPlan.Ty

mutual

/-- The two types are one. -/
def same : Ty → Ty → Bool
  | s, t =>
    match s.name, t.name with
    | some a, some b => a == b
    | none, none =>
      match s, t with
      | list _ x, list _ y => same x y
      | tuple _ xs, tuple _ ys => sameAll xs ys
      | fields _ fs, fields _ gs => fs.length == gs.length && sameFields fs gs
      | keyed _ k v, keyed _ l w => same k l && same v w
      | union _ xs, union _ ys => sameAll xs ys
      | _, _ => false
    | _, _ => false
termination_by structural s => s

/-- Type by type. -/
def sameAll : List Ty → List Ty → Bool
  | [], [] => true
  | x :: xs, y :: ys => same x y && sameAll xs ys
  | _, _ => false
termination_by structural xs => xs

/-- Every field on the left has one like it on the right. -/
def sameFields : List (String × Ty) → List (String × Ty) → Bool
  | [], _ => true
  | f :: fs, gs => gs.any (sameField f) && sameFields fs gs
termination_by structural fs => fs

def sameField : String × Ty → String × Ty → Bool
  | (n, t), g => g.1 == n && same t g.2
termination_by structural f => f

end

theorem sameAll_eq (xs ys : List Ty) :
    sameAll xs ys = (xs.length == ys.length && (xs.zip ys).all fun p ↦ same p.1 p.2) := by
  induction xs generalizing ys with
  | nil => cases ys <;> simp [sameAll]
  | cons x xs ih =>
    cases ys with
    | nil => simp [sameAll]
    | cons y ys =>
      rw [sameAll, ih]
      simp [Bool.and_left_comm]

theorem sameFields_eq (fs gs : List (String × Ty)) :
    sameFields fs gs = fs.all fun f ↦ gs.any fun g ↦ g.1 == f.1 && same f.2 g.2 := by
  induction fs with
  | nil => rfl
  | cons f fs ih =>
    rcases f with ⟨n, t⟩
    rw [sameFields, ih, List.all_cons]
    rfl

/-- The type is the built-in type of all values. -/
def isAny (t : Ty) : Bool := t.builtin? == some .any

/-- A value of the first type can be used where the second is expected. -/
def isSubtype (s t : Ty) : Bool :=
  if s.same t || t.isAny then true
  else
    match s, t with
    | union _ ms, t => ms.attach.all fun m ↦ isSubtype m.1 t
    | s, union _ ms => ms.attach.any fun m ↦ isSubtype s m.1
    | simple n u, simple m v => (simple n u).ancestors.any (·.same (simple m v))
    | list _ x, list _ y => isSubtype x y
    | tuple _ xs, tuple _ ys =>
      xs.length == ys.length &&
        (xs.attach.zip ys.attach).all fun p ↦ isSubtype p.1.1 p.2.1
    | fields _ fs, fields _ gs =>
      fs.length == gs.length &&
        gs.attach.all fun g ↦ fs.attach.any fun f ↦ f.1.1 == g.1.1 && isSubtype f.1.2 g.1.2
    | keyed _ k v, keyed _ l w => k.same l && isSubtype v w
    | fields _ fs, keyed _ k v =>
      k.isNamed "string" && fs.attach.all fun f ↦ isSubtype f.1.2 v
    | _, _ => false
termination_by sizeOf s + sizeOf t
decreasing_by
  · have := List.sizeOf_lt_of_mem m.2
    simp only [union.sizeOf_spec]
    omega
  · have := List.sizeOf_lt_of_mem m.2
    simp only [union.sizeOf_spec]
    omega
  · simp only [list.sizeOf_spec]
    omega
  · have := List.sizeOf_lt_of_mem p.1.2
    have := List.sizeOf_lt_of_mem p.2.2
    simp only [tuple.sizeOf_spec]
    omega
  · have := List.sizeOf_lt_of_mem f.2
    have := List.sizeOf_lt_of_mem g.2
    have : sizeOf f.1.2 < sizeOf f.1 := by
      rcases f.1 with ⟨_, _⟩
      simp only [Prod.mk.sizeOf_spec]
      omega
    have : sizeOf g.1.2 < sizeOf g.1 := by
      rcases g.1 with ⟨_, _⟩
      simp only [Prod.mk.sizeOf_spec]
      omega
    simp only [fields.sizeOf_spec]
    omega
  · simp only [keyed.sizeOf_spec]
    omega
  · have := List.sizeOf_lt_of_mem f.2
    have : sizeOf f.1.2 < sizeOf f.1 := by
      rcases f.1 with ⟨_, _⟩
      simp only [Prod.mk.sizeOf_spec]
      omega
    simp only [fields.sizeOf_spec, keyed.sizeOf_spec]
    omega

theorem all_attach {α : Type} (xs : List α) (p : α → Bool) :
    (xs.attach.all fun x ↦ p x.1) = xs.all p := by simp

theorem any_attach {α : Type} (xs : List α) (p : α → Bool) :
    (xs.attach.any fun x ↦ p x.1) = xs.any p := by simp

theorem all_zip_attach {α β : Type} (xs : List α) (ys : List β) (p : α → β → Bool) :
    ((xs.attach.zip ys.attach).all fun q ↦ p q.1.1 q.2.1) = (xs.zip ys).all fun q ↦ p q.1 q.2 := by
  conv => rhs; rw [← List.attach_map_subtype_val xs, ← List.attach_map_subtype_val ys,
    List.zip_map, List.all_map]
  rfl

/-- One step of subtyping. -/
theorem isSubtype_eq (s t : Ty) : s.isSubtype t =
    (s.same t || t.isAny ||
      match s, t with
      | union _ ms, t => ms.all fun m ↦ m.isSubtype t
      | s, union _ ms => ms.any fun m ↦ s.isSubtype m
      | simple n u, simple m v => (simple n u).ancestors.any (·.same (simple m v))
      | list _ x, list _ y => x.isSubtype y
      | tuple _ xs, tuple _ ys =>
        xs.length == ys.length && (xs.zip ys).all fun p ↦ p.1.isSubtype p.2
      | fields _ fs, fields _ gs =>
        fs.length == gs.length &&
          gs.all fun g ↦ fs.any fun f ↦ f.1 == g.1 && f.2.isSubtype g.2
      | keyed _ k v, keyed _ l w => k.same l && v.isSubtype w
      | fields _ fs, keyed _ k v => k.isNamed "string" && fs.all fun f ↦ f.2.isSubtype v
      | _, _ => false) := by
  rw [isSubtype.eq_def]
  split
  · simp_all
  · rename_i h
    rw [Bool.eq_false_iff.2 h, Bool.false_or]
    cases s with
    | fields n fs =>
      cases t with
      | fields m gs =>
        have hf (g : String × Ty) :
            (fs.attach.any fun f ↦ f.1.1 == g.1 && f.1.2.isSubtype g.2) =
              fs.any fun f ↦ f.1 == g.1 && f.2.isSubtype g.2 :=
          any_attach fs fun f ↦ f.1 == g.1 && f.2.isSubtype g.2
        simp only [hf, all_attach gs fun g ↦ fs.any fun f ↦ f.1 == g.1 && f.2.isSubtype g.2]
      | keyed m k v => simp only [all_attach fs fun f ↦ f.2.isSubtype v]
      | _ => simp
    | _ => cases t <;> simp [all_zip_attach _ _ isSubtype]

end LabPlan.Ty
