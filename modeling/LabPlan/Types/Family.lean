import LabPlan.Types.Basic

/-! # Families of types

Types are compared by their names, so comparing them makes sense only where a name stands for one
type.  A family is a collection of types in which this is so: it is closed under the parts of its
types, and each of its types is sound by itself. -/

namespace LabPlan

namespace Ty

/-- `Within s t`: the type `s` is `t`, or `t` is made of it. -/
inductive Within : Ty → Ty → Prop where
  | refl (t : Ty) : Within t t
  | part {s t u : Ty} (hu : u ∈ t.parts) (h : Within s u) : Within s t

theorem Within.trans {s t u : Ty} (h : Within s t) (k : Within t u) : Within s u := by
  induction k with
  | refl => exact h
  | part hu _ ih => exact .part hu ih

/-- What must hold of a type apart from its parts: a simple type has a name and a simple super-type,
a key is a string or an integer, and fields have distinct names. -/
def IsSound : Ty → Prop
  | simple n s => n.isSome = true ∧ ∀ u, s = some u → u.isSimple = true
  | fields _ fs => (fs.map Prod.fst).Nodup
  | keyed _ k _ => k = ofBuiltin .string ∨ k = ofBuiltin .integer
  | _ => True

end Ty

/-- Types among which a name stands for one type. -/
structure Family (F : Ty → Prop) : Prop where
  /-- The parts of a type belong to the family. -/
  parts {s t : Ty} (ht : F t) (hs : s ∈ t.parts) : F s
  sound {t : Ty} (ht : F t) : t.IsSound
  /-- A name stands for one type. -/
  named {s t : Ty} {n : String} (hs : F s) (ht : F t) (hn : s.name = some n)
    (hm : t.name = some n) : s = t
  /-- The name of a built-in type stands for it. -/
  builtin {t : Ty} {b : Builtin} (ht : F t) (hb : t.name = some b.name) : t = Ty.ofBuiltin b

end LabPlan
