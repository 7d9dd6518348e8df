import LabPlan.Value.Same

/-! # Values inside values

Which values a document is made of, keys included, and three properties that hold of a value at
every depth: no mapping has a key twice, no key is tagged, and nothing is tagged at all.  A value
that was read from a text never has a key twice. -/

namespace LabPlan

/-- No two entries have the same key. -/
def Entries.Distinct (es : Entries) : Prop := es.Pairwise fun e f ↦ e.1.same f.1 = false

namespace Value

/-- `Within u v`: the value `u` is `v`, or stands somewhere inside it. -/
inductive Within : Value → Value → Prop where
  | refl (v : Value) : Within v v
  | item {u v : Value} {vs : List Value} (hv : v ∈ vs) (h : Within u v) : Within u (sequence vs)
  | key {u : Value} {e : Value × Value} {es : Entries} (he : e ∈ es) (h : Within u e.1) :
    Within u (mapping es)
  | value {u : Value} {e : Value × Value} {es : Entries} (he : e ∈ es) (h : Within u e.2) :
    Within u (mapping es)
  | tagged {u v : Value} {t : String} (h : Within u v) : Within u (tagged t v)

theorem Within.trans {u v w : Value} (h : Within u v) (k : Within v w) : Within u w := by
  induction k with
  | refl => exact h
  | item hv _ ih => exact .item hv ih
  | key he _ ih => exact .key he ih
  | value he _ ih => exact .value he ih
  | tagged _ ih => exact .tagged ih

/-- The property holds of the value and of everything inside it. -/
def Everywhere (P : Value → Prop) (v : Value) : Prop := ∀ u, Within u v → P u

section Everywhere

variable {P : Value → Prop}

theorem Everywhere.here {v : Value} (h : Everywhere P v) : P v := h v (.refl v)

theorem Everywhere.within {u v : Value} (h : Everywhere P v) (hu : Within u v) :
    Everywhere P u := fun w hw ↦ h w (hw.trans hu)

theorem everywhere_sequence {vs : List Value} :
    Everywhere P (sequence vs) ↔ P (sequence vs) ∧ ∀ v ∈ vs, Everywhere P v := by
  refine ⟨fun h ↦ ⟨h.here, fun v hv ↦ h.within (.item hv (.refl v))⟩, fun ⟨h, hs⟩ u hu ↦ ?_⟩
  cases hu with
  | refl => exact h
  | item hv hu => exact hs _ hv u hu

theorem everywhere_mapping {es : Entries} :
    Everywhere P (mapping es) ↔
      P (mapping es) ∧ ∀ e ∈ es, Everywhere P e.1 ∧ Everywhere P e.2 := by
  refine ⟨fun h ↦ ⟨h.here, fun e he ↦
    ⟨h.within (.key he (.refl _)), h.within (.value he (.refl _))⟩⟩,
    fun ⟨h, hs⟩ u hu ↦ ?_⟩
  cases hu with
  | refl => exact h
  | key he hu => exact (hs _ he).1 u hu
  | value he hu => exact (hs _ he).2 u hu

theorem everywhere_tagged {t : String} {v : Value} :
    Everywhere P (tagged t v) ↔ P (tagged t v) ∧ Everywhere P v := by
  refine ⟨fun h ↦ ⟨h.here, h.within (.tagged (.refl v))⟩, fun ⟨h, hv⟩ u hu ↦ ?_⟩
  cases hu with
  | refl => exact h
  | tagged hu => exact hv u hu

/-- A value that is no collection and has no tag has nothing inside. -/
theorem everywhere_scalar {v : Value} (h : ∀ u, Within u v → u = v) :
    Everywhere P v ↔ P v :=
  ⟨Everywhere.here, fun hv u hu ↦ (h u hu).symm ▸ hv⟩

@[simp] theorem everywhere_null : Everywhere P null ↔ P null :=
  everywhere_scalar fun _ hu ↦ by cases hu; rfl

@[simp] theorem everywhere_int {i : Int} : Everywhere P (int i) ↔ P (int i) :=
  everywhere_scalar fun _ hu ↦ by cases hu; rfl

@[simp] theorem everywhere_string {s : String} : Everywhere P (string s) ↔ P (string s) :=
  everywhere_scalar fun _ hu ↦ by cases hu; rfl

end Everywhere

/-- The entries of an untagged mapping; other values have none. -/
def ownEntries : Value → Entries
  | mapping es => es
  | _ => []

/-- A tag stands on the value. -/
def isTagged : Value → Bool
  | tagged _ _ => true
  | _ => false

/-- No mapping in the value has a key twice. -/
def KeysDistinct : Value → Prop := Everywhere fun u ↦ u.ownEntries.Distinct

/-- No mapping in the value has a tagged key. -/
def KeysUntagged : Value → Prop := Everywhere fun u ↦ ∀ e ∈ u.ownEntries, e.1.isTagged = false

/-- Nothing in the value is tagged. -/
def TagFree : Value → Prop := Everywhere fun u ↦ u.isTagged = false

end Value

end LabPlan
