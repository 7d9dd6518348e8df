import LabPlan.Description.Variant
import LabPlan.Proofs.Value
import Mathlib.Data.Option.Basic

/-! # Entries and their names

The texts of its keys name the entries of a mapping.  Where no two keys have the same text, a name
finds the same entry in whatever order they come.  Mappings with the same keys are compared entry by
entry, which says what can be looked up in each. -/

namespace LabPlan

namespace Entries

variable {es fs : Entries} {name : String}

/-! ## Names -/

/-- The texts of the keys, in order. -/
def names (es : Entries) : List String := es.filterMap fun e ↦ e.1.text?

/-- No two keys have the same text. -/
def NamesDistinct (es : Entries) : Prop := es.names.Nodup

instance (es : Entries) : Decidable es.NamesDistinct := inferInstanceAs (Decidable es.names.Nodup)

theorem names_eq (es : Entries) : es.names = es.keys.filterMap Value.text? := by
  rw [names, keys, List.filterMap_map]
  rfl

theorem names_cons_of_text? {e : Value × Value} {s : String} (h : e.1.text? = some s) :
    names (e :: es) = s :: es.names := List.filterMap_cons_some h

theorem mem_names_of_mem {e : Value × Value} (he : e ∈ es) {s : String}
    (h : e.1.text? = some s) : s ∈ es.names := List.mem_filterMap.2 ⟨e, he, h⟩

theorem names_perm (h : es.Perm fs) : es.names.Perm fs.names := h.filterMap _

theorem NamesDistinct.perm (hd : es.NamesDistinct) (h : es.Perm fs) : fs.NamesDistinct :=
  (names_perm h).nodup_iff.1 hd

theorem namesDistinct_nil : NamesDistinct [] := List.nodup_nil

theorem NamesDistinct.tail {e : Value × Value} (hd : NamesDistinct (e :: es)) :
    es.NamesDistinct := hd.sublist ((List.sublist_cons_self e es).filterMap _)

/-- The text of the first key is none of the others. -/
theorem NamesDistinct.head_notMem {e : Value × Value} (hd : NamesDistinct (e :: es)) {s : String}
    (h : e.1.text? = some s) : s ∉ es.names := by
  rw [NamesDistinct, names_cons_of_text? h] at hd
  exact (List.nodup_cons.1 hd).1

/-- Distinct keys without tags have distinct texts. -/
theorem namesDistinct_of_untagged (hd : es.Distinct) (hu : ∀ e ∈ es, e.1.isTagged = false) :
    es.NamesDistinct := by
  refine List.pairwise_filterMap.2 (List.Pairwise.imp_of_mem ?_ hd)
  rintro e f he hf hef s hs t ht rfl
  rw [Value.eq_string_of_text? (hu e he) hs, Value.eq_string_of_text? (hu f hf) ht] at hef
  simp [Value.same] at hef

/-- Things that are named by the keys have the names of the mapping. -/
theorem map_eq_names {α : Type} {nameOf : α → String} {as : List α}
    (h : List.Forall₂ (fun e a ↦ e.1.text? = some (nameOf a)) es as) :
    as.map nameOf = es.names := by
  induction h with
  | nil => rfl
  | cons he _ ih => rw [List.map_cons, ih, names_cons_of_text? he]

/-! ## Looking up -/

/-- Where no plain key comes twice, a name finds what stands under it. -/
theorem lookup_of_mem
    (hd : es.Pairwise fun e f ↦ ∀ s, e.1 = .string s → f.1 ≠ .string s) {v : Value}
    (h : (Value.string name, v) ∈ es) : lookup name es = some v := by
  induction hd with
  | nil => exact absurd h List.not_mem_nil
  | @cons e es he _ ih =>
      obtain ⟨k, w⟩ := e
      rw [lookup_cons]
      rcases List.mem_cons.1 h with heq | hmem
      · obtain ⟨rfl, rfl⟩ := Prod.mk.inj heq
        exact if_pos (Value.isKey_iff.2 rfl)
      · rw [if_neg, ih hmem]
        exact fun hk ↦ he _ hmem name (Value.isKey_iff.1 hk) rfl

/-- Where keys are distinct, what is found under a name is whatever stands there. -/
theorem Distinct.lookup_eq_some_iff (hd : es.Distinct) {v : Value} :
    lookup name es = some v ↔ (Value.string name, v) ∈ es := by
  refine ⟨mem_of_lookup, lookup_of_mem (hd.imp ?_)⟩
  rintro e f hef s he hf
  rw [he, hf] at hef
  simp [Value.same] at hef

/-- Where names are distinct, what is found under a name is whatever stands there. -/
theorem NamesDistinct.lookup_eq_some_iff (hd : es.NamesDistinct) {v : Value} :
    lookup name es = some v ↔ (Value.string name, v) ∈ es := by
  refine ⟨mem_of_lookup, lookup_of_mem ((List.pairwise_filterMap.1 hd).imp ?_)⟩
  rintro e f hef s he hf
  exact hef s (he ▸ rfl) s (hf ▸ rfl) rfl

/-- Where names are distinct, the order of the entries does not matter. -/
theorem lookup_eq_of_perm (hd : es.NamesDistinct) (h : es.Perm fs) (name : String) :
    lookup name es = lookup name fs := by
  ext v
  rw [hd.lookup_eq_some_iff, (hd.perm h).lookup_eq_some_iff, h.mem_iff]

/-- What stands under other names has no bearing on what is found under a name. -/
theorem lookup_filter {p : Value × Value → Bool} (hp : ∀ v, p (.string name, v) = true)
    (es : Entries) : lookup name (es.filter p) = lookup name es := by
  induction es with
  | nil => rfl
  | cons e es ih =>
      obtain ⟨k, v⟩ := e
      rw [lookup_cons, List.filter_cons]
      split
      · rw [lookup_cons, ih]
      · rename_i h
        rw [if_neg, ih]
        intro hk
        obtain rfl := Value.isKey_iff.1 hk
        exact h (hp v)

/-! ## Putting values in -/

/-- What was put in is found, and nothing else has changed. -/
theorem lookup_insert (name : String) (v : Value) (s : String) (es : Entries) :
    lookup s (insert name v es) = if s = name then some v else lookup s es := by
  have hkey : ((Value.string name).isKey s = true) = (s = name) :=
    propext (beq_iff_eq.trans eq_comm)
  induction es with
  | nil => simp only [insert, lookup_cons, hkey]
  | cons e es ih =>
      obtain ⟨k, w⟩ := e
      rw [insert]
      split
      · rename_i hk
        obtain rfl := Value.isKey_iff.1 hk
        simp only [lookup_cons, hkey]
        split
        · rfl
        · rfl
      · rename_i hk
        rw [lookup_cons, lookup_cons, ih]
        split
        · rename_i hs
          obtain rfl := Value.isKey_iff.1 hs
          rw [if_neg]
          rintro rfl
          exact hk hs
        · rfl

/-- A name that is there after a value was put in was there before, or is the new one. -/
theorem mem_names_insert {v : Value} {s : String} (h : s ∈ names (insert name v es)) :
    s = name ∨ s ∈ names es := by
  obtain ⟨e, he, hs⟩ := List.mem_filterMap.1 h
  induction es with
  | nil =>
      obtain rfl := List.mem_singleton.1 he
      exact .inl (Option.some.inj hs).symm
  | cons f es ih =>
      obtain ⟨k, w⟩ := f
      rw [insert] at he
      split at he
      · rcases List.mem_cons.1 he with rfl | he
        · exact .inr (mem_names_of_mem List.mem_cons_self hs)
        · exact .inr (mem_names_of_mem (List.mem_cons_of_mem _ he) hs)
      · rcases List.mem_cons.1 he with rfl | he
        · exact .inr (mem_names_of_mem List.mem_cons_self hs)
        · refine (ih (mem_names_of_mem he hs) he).imp_right fun hmem ↦ ?_
          obtain ⟨f, hf, ht⟩ := List.mem_filterMap.1 hmem
          exact mem_names_of_mem (List.mem_cons_of_mem _ hf) ht

/-! ## Entry by entry -/

/-- The same keys in the same order, with values that are related under each of them. -/
def Paired (S : Value → Value → Value → Prop) (es fs : Entries) : Prop :=
  List.Forall₂ (fun e f ↦ e.1 = f.1 ∧ S e.1 e.2 f.2) es fs

namespace Paired

variable {S : Value → Value → Value → Prop}

theorem keys_eq (h : Paired S es fs) : es.keys = fs.keys := by
  induction h with
  | nil => rfl
  | cons he _ ih => exact congrArg₂ List.cons he.1 ih

theorem names_eq (h : Paired S es fs) : es.names = fs.names := by
  rw [Entries.names_eq, Entries.names_eq, h.keys_eq]

/-- What is found under a name in one mapping is related to what is found in the other. -/
theorem lookup (h : Paired S es fs) (name : String) :
    Option.Rel (S (.string name)) (Entries.lookup name es) (Entries.lookup name fs) := by
  induction h with
  | nil => exact .none
  | @cons e f es fs he _ ih =>
      obtain ⟨k, v⟩ := e
      obtain ⟨l, w⟩ := f
      obtain ⟨rfl, hvw⟩ := he
      rw [lookup_cons, lookup_cons]
      split
      · rename_i hk
        obtain rfl := Value.isKey_iff.1 hk
        exact .some hvw
      · exact ih

end Paired

end Entries

namespace Value

/-- The entries of a value with plain keys have distinct names. -/
theorem HasPlainKeys.namesDistinct {v : Value} (h : v.HasPlainKeys) :
    v.ownEntries.NamesDistinct :=
  Entries.namesDistinct_of_untagged (Everywhere.here h.distinct) (Everywhere.here h.untagged)

/-- What is named by the keys of a mapping has distinct names. -/
theorem HasPlainKeys.nodup {es : Entries} (h : (mapping es).HasPlainKeys) {α : Type}
    {name : α → String} {as : List α}
    (ha : List.Forall₂ (fun e a ↦ e.1.text? = some (name a)) es as) : (as.map name).Nodup := by
  rw [Entries.map_eq_names ha]
  exact h.namesDistinct

/-- Mappings that differ in the value of one entry are paired: values are equal but for that one. -/
theorem AtKey.exists_paired {P : Value → Prop} {R : Value → Value → Prop} {v w : Value}
    (h : AtKey P R v w) : ∃ es fs, v = mapping es ∧ w = mapping fs ∧
      Entries.Paired (fun k u u' ↦ u = u' ∨ P k ∧ R u u') es fs := by
  obtain ⟨before, after, hk, hr⟩ := h
  have hsame (es : Entries) : Entries.Paired (fun k u u' ↦ u = u' ∨ P k ∧ R u u') es es :=
    List.forall₂_same.2 fun _ _ ↦ ⟨rfl, .inl rfl⟩
  exact ⟨_, _, rfl, rfl,
    List.rel_append (hsame before) (.cons ⟨rfl, .inr ⟨hk, hr⟩⟩ (hsame after))⟩

end Value

end LabPlan
