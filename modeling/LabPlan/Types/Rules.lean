import LabPlan.Types.Basic

/-! # The rules of subtyping

Subtyping as the least relation with a rule for every way in which one type can be used for
another.  Structures may differ in their names, and fields may come in any order. -/

namespace LabPlan.Ty

/-- `Sub F s t`: the rules make `s` a subtype of `t`, where types in between belong to `F`. -/
inductive Sub (F : Ty → Prop) : Ty → Ty → Prop where
  | refl (t : Ty) : Sub F t t
  | trans {s t u : Ty} (ht : F t) (h : Sub F s t) (k : Sub F t u) : Sub F s u
  | any (t : Ty) : Sub F t any
  | super (n : Option String) (t : Ty) : Sub F (simple n (some t)) t
  | member {t : Ty} {ts : List Ty} (n : Option String) (ht : t ∈ ts) : Sub F t (union n ts)
  | union {t : Ty} {ms : List Ty} (n : Option String) (h : ∀ m ∈ ms, Sub F m t) :
    Sub F (union n ms) t
  | list {s t : Ty} (n m : Option String) (h : Sub F s t) : Sub F (list n s) (list m t)
  | tuple {ss ts : List Ty} (n m : Option String) (hl : ss.length = ts.length)
    (h : ∀ p ∈ ss.zip ts, Sub F p.1 p.2) : Sub F (tuple n ss) (tuple m ts)
  | fields {fs gs : List (String × Ty)} (n m : Option String)
    (hn : ∀ name, name ∈ fs.map Prod.fst ↔ name ∈ gs.map Prod.fst)
    (h : ∀ f ∈ fs, ∀ g ∈ gs, f.1 = g.1 → Sub F f.2 g.2) : Sub F (fields n fs) (fields m gs)
  | keyed {v w : Ty} (n m : Option String) (k : Ty) (h : Sub F v w) :
    Sub F (keyed n k v) (keyed m k w)
  /-- A mapping with known fields is a mapping from strings. -/
  | record {fs : List (String × Ty)} {v : Ty} (n m : Option String) (h : ∀ f ∈ fs, Sub F f.2 v) :
    Sub F (fields n fs) (keyed m (ofBuiltin .string) v)

end LabPlan.Ty
