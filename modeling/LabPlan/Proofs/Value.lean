import LabPlan.Description.WellFormed
import LabPlan.Value.Within
import Mathlib.Data.List.Forall2

/-! # Values inside values

Induction on what a value is made of, and what it means for names that they stand as keys: where
keys are distinct and carry no tags, the names are distinct. -/

namespace LabPlan.Value

/-- Induction on the values inside a value, keys aside. -/
theorem induction {P : Value → Prop} (scalar : ∀ v, v.isScalar = true → P v)
    (sequence : ∀ vs, (∀ v ∈ vs, P v) → P (.sequence vs))
    (mapping : ∀ es, (∀ e ∈ es, P e.2) → P (.mapping es))
    (tagged : ∀ t v, P v → P (.tagged t v)) (v : Value) : P v := by
  have nil : ∀ v ∈ [], P v := List.forall_mem_nil P
  have cons (v : Value) (vs : List Value) (hv : P v) (hvs : ∀ v ∈ vs, P v) :
      ∀ w ∈ v :: vs, P w := List.forall_mem_cons.2 ⟨hv, hvs⟩
  have nil' : ∀ e ∈ ([] : Entries), P e.2 := List.forall_mem_nil _
  have cons' (e : Value × Value) (es : Entries) (he : P e.2) (hes : ∀ e ∈ es, P e.2) :
      ∀ f ∈ e :: es, P f.2 := List.forall_mem_cons.2 ⟨he, hes⟩
  exact @Value.rec P (fun vs ↦ ∀ v ∈ vs, P v) (fun es ↦ ∀ e ∈ es, P e.2) (fun e ↦ P e.2)
    (scalar _ rfl) (fun _ ↦ scalar _ rfl) (fun _ ↦ scalar _ rfl) (fun _ ↦ scalar _ rfl)
    (fun _ ↦ scalar _ rfl) sequence mapping tagged nil cons nil' cons' (fun _ _ _ h ↦ h) v

/-- An untagged value with a text is the text itself. -/
theorem eq_string_of_text? {v : Value} {s : String} (ht : v.isTagged = false)
    (h : v.text? = some s) : v = string s := by
  cases v with
  | string t => exact congrArg string (Option.some.inj h)
  | tagged t v => cases ht
  | _ => cases h

/-- Texts are read back from a list of texts. -/
theorem mapM_text?_map_string (ss : List String) : (ss.map string).mapM text? = some ss := by
  induction ss with
  | nil => rfl
  | cons s ss ih =>
      rw [List.map_cons, List.mapM_cons, ih]
      rfl

/-- No mapping in the value has a key twice or a key with a tag. -/
structure HasPlainKeys (v : Value) : Prop where
  distinct : v.KeysDistinct
  untagged : v.KeysUntagged

namespace HasPlainKeys

variable {vs : List Value} {es : Entries}

/-- What is inside a value with plain keys has plain keys. -/
theorem within {u v : Value} (h : v.HasPlainKeys) (hu : Within u v) : u.HasPlainKeys where
  distinct := Everywhere.within h.distinct hu
  untagged := Everywhere.within h.untagged hu

theorem item (h : (sequence vs).HasPlainKeys) {v : Value} (hv : v ∈ vs) : v.HasPlainKeys :=
  h.within (.item hv (.refl v))

theorem value (h : (mapping es).HasPlainKeys) {e : Value × Value} (he : e ∈ es) :
    e.2.HasPlainKeys := h.within (.value he (.refl e.2))

/-- What stands under a key has plain keys if the mapping has. -/
theorem lookup (h : (mapping es).HasPlainKeys) {name : String} {v : Value}
    (hv : Entries.lookup name es = some v) : v.HasPlainKeys :=
  h.value (Entries.mem_of_lookup hv)

theorem content {t : String} {v : Value} (h : (tagged t v).HasPlainKeys) : v.HasPlainKeys :=
  h.within (.tagged (.refl v))

theorem distinct_entries (h : (mapping es).HasPlainKeys) : es.Distinct := Everywhere.here h.distinct

end HasPlainKeys

end LabPlan.Value
