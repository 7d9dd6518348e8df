import LabPlan.Proofs.Types.Values

/-! # Types that are the same

In a family, sameness of types is an equivalence, and nothing tells types apart that are the same.
A search for every field on the left among as many fields on the right does not look symmetric; it
is, because names are distinct.  Types that are the same are subtypes of each other, so they have
the same subtypes and super-types, and the same values. -/

namespace LabPlan.Ty

/-! ## Structures that are alike -/

namespace Alike

variable {R S T : Ty → Ty → Prop} {s t u : Ty}

/-- Turning the relation between the parts around turns around how the types are alike. -/
theorem symm (h : Alike R s t) (hRS : ∀ a ∈ s.parts, ∀ b ∈ t.parts, R a b → S b a) :
    Alike S t s := by
  match s, t with
  | list none x, list none y => exact hRS x List.mem_cons_self y List.mem_cons_self h
  | tuple none xs, tuple none ys | union none xs, union none ys =>
      have hflip : List.Forall₂ (fun a b ↦ S b a) xs ys := forall₂_imp_of_mem h hRS
      exact hflip.flip
  | fields none fs, fields none gs =>
      refine ⟨fun n ↦ (h.1 n).symm, fun g hg f hf hn ↦ ?_⟩
      exact hRS _ (mem_parts_fields hf) _ (mem_parts_fields hg) (h.2 f hf g hg hn.symm)
  | keyed none k v, keyed none l w =>
      refine ⟨h.1.symm, ?_⟩
      exact hRS v (mem_parts_value none k v) w (mem_parts_value none l w) h.2

/-- Types are alike by way of a third one if their parts are related by way of its parts. -/
theorem trans (h : Alike R s t) (k : Alike S t u)
    (hRS : ∀ a ∈ s.parts, ∀ b ∈ t.parts, ∀ c ∈ u.parts, R a b → S b c → T a c) :
    Alike T s u := by
  match s, t, u with
  | list none x, list none y, list none z =>
      exact hRS x List.mem_cons_self y List.mem_cons_self z List.mem_cons_self h k
  | tuple none xs, tuple none ys, tuple none zs
  | union none xs, union none ys, union none zs => exact forall₂_trans_of_mem h k hRS
  | fields none fs, fields none gs, fields none hs =>
      refine ⟨fun n ↦ (h.1 n).trans (k.1 n), fun f hf x hx hn ↦ ?_⟩
      obtain ⟨g, hg, hname, hR⟩ := h.exists_right hf
      exact hRS _ (mem_parts_fields hf) _ (mem_parts_fields hg) _ (mem_parts_fields hx) hR
        (k.2 g hg x hx (hname.symm.trans hn))
  | keyed none k₁ v, keyed none k₂ w, keyed none k₃ x =>
      refine ⟨h.1.trans k.1, ?_⟩
      exact hRS v (mem_parts_value none k₁ v) w (mem_parts_value none k₂ w) x
        (mem_parts_value none k₃ x) h.2 k.2

end Alike

section Family

variable {F : Ty → Prop} (hF : Family F) {s s' t t' u : Ty}

include hF

/-! ## An equivalence -/

theorem same_symm {s t : Ty} (hs : F s) (ht : F t) (h : s.same t = true) : t.same s = true := by
  rw [same_iff hF hs ht] at h
  rw [same_iff hF ht hs]
  rcases h with rfl | h
  · exact .inl rfl
  · refine .inr (h.symm fun a ha b hb hab ↦ ?_)
    exact same_symm (hF.parts hs ha) (hF.parts ht hb) hab
termination_by sizeOf s
decreasing_by exact sizeOf_part_lt ha

theorem same_trans {s t u : Ty} (hs : F s) (ht : F t) (hu : F u) (h : s.same t = true)
    (k : t.same u = true) : s.same u = true := by
  rcases (same_iff hF hs ht).1 h with rfl | h'
  · exact k
  rcases (same_iff hF ht hu).1 k with rfl | k'
  · exact h
  rw [same_iff hF hs hu]
  refine .inr (h'.trans k' fun a ha b hb c hc hab hbc ↦ ?_)
  exact same_trans (hF.parts hs ha) (hF.parts ht hb) (hF.parts hu hc) hab hbc
termination_by sizeOf s
decreasing_by exact sizeOf_part_lt ha

/-! ## A congruence -/

/-- What is below a type is below what is the same, also where it is replaced itself. -/
theorem isSubtype_of_same_of_isSubtype (hs : F s) (hs' : F s') (ht : F t) (ht' : F t')
    (hss : s'.same s = true) (htt : t.same t' = true) (h : s.isSubtype t = true) :
    s'.isSubtype t' = true := by
  have hs't : s'.isSubtype t = true := isSubtype_trans hF hs' hs ht (isSubtype_of_same hss) h
  exact isSubtype_trans hF hs' ht ht' hs't (isSubtype_of_same htt)

theorem isSubtype_congr (hs : F s) (hs' : F s') (ht : F t) (ht' : F t')
    (hss : s.same s' = true) (htt : t.same t' = true) : s.isSubtype t = s'.isSubtype t' := by
  rw [Bool.eq_iff_iff]
  constructor
  · exact isSubtype_of_same_of_isSubtype hF hs hs' ht ht' (same_symm hF hs hs' hss) htt
  · exact isSubtype_of_same_of_isSubtype hF hs' hs ht' ht hss (same_symm hF ht ht' htt)

theorem accepts_of_same (hs : F s) (ht : F t) (h : s.same t = true) {v : Value}
    (hv : s.accepts v = true) : t.accepts v = true :=
  accepts_of_sub hF hs ht (sub_of_isSubtype hF hs ht (isSubtype_of_same h)) hv

theorem accepts_congr (hs : F s) (ht : F t) (h : s.same t = true) (v : Value) :
    s.accepts v = t.accepts v := by
  rw [Bool.eq_iff_iff]
  constructor
  · exact accepts_of_same hF hs ht h
  · exact accepts_of_same hF ht hs (same_symm hF hs ht h)

/-- In a family, sameness is an equivalence, and types that are the same can be put for each other
wherever types are compared and wherever values are checked. -/
theorem same_congruence :
    (∀ s, F s → s.same s = true) ∧
      (∀ s t, F s → F t → s.same t = true → t.same s = true) ∧
      (∀ s t u, F s → F t → F u → s.same t = true → t.same u = true → s.same u = true) ∧
      ∀ s s', F s → F s' → s.same s' = true →
        (∀ t t', F t → F t' → t.same t' = true → s.isSubtype t = s'.isSubtype t') ∧
          ∀ v, s.accepts v = s'.accepts v := by
  refine ⟨fun s ↦ same_refl hF, fun s t ↦ same_symm hF, fun s t u ↦ same_trans hF, ?_⟩
  intro s s' hs hs' h
  exact ⟨fun t t' ht ht' ↦ isSubtype_congr hF hs hs' ht ht' h, accepts_congr hF hs hs' h⟩

end Family

/-! ## A family -/

/-- Anonymous types that are made of built-in types and of each other form a family with them. -/
theorem family_of_anonymous {P : Ty → Prop} (hname : ∀ t, P t → t.name = none)
    (hsound : ∀ t, P t → t.IsSound)
    (hparts : ∀ t, P t → ∀ s ∈ t.parts, (∃ b, s = ofBuiltin b) ∨ P s) :
    Family fun t ↦ (∃ b, t = ofBuiltin b) ∨ P t where
  parts := by
    rintro s t (⟨b, rfl⟩ | ht) hs
    · rw [parts_ofBuiltin, Option.mem_toList] at hs
      obtain ⟨c, -, rfl⟩ := Option.map_eq_some_iff.1 hs
      exact .inl ⟨c, rfl⟩
    · exact hparts t ht s hs
  sound := by
    rintro t (⟨b, rfl⟩ | ht)
    · exact isSound_ofBuiltin b
    · exact hsound t ht
  named := by
    rintro s t n (⟨b, rfl⟩ | hs) (⟨c, rfl⟩ | ht) hn hm
    · rw [name_ofBuiltin] at hn hm
      rw [Builtin.name_injective (Option.some.inj (hn.trans hm.symm))]
    · cases (hname t ht).symm.trans hm
    · cases (hname s hs).symm.trans hn
    · cases (hname t ht).symm.trans hm
  builtin := by
    rintro t b (⟨c, rfl⟩ | ht) hb
    · rw [name_ofBuiltin] at hb
      rw [Builtin.name_injective (Option.some.inj hb)]
    · cases (hname t ht).symm.trans hb

/-- An anonymous record of two numbers. -/
def bounds : Ty := fields none [("low", ofBuiltin .integer), ("high", ofBuiltin .number)]

/-- The same record with its fields the other way round. -/
def boundsTurned : Ty := fields none [("high", ofBuiltin .number), ("low", ofBuiltin .integer)]

/-- Values of the type, or nothing. -/
def maybe (t : Ty) : Ty := union none [ofBuiltin .null, t]

/-- The two records and what may be missing of them. -/
def IsBounds (t : Ty) : Prop := t ∈ [bounds, boundsTurned, maybe bounds, maybe boundsTurned]

theorem family_isBounds : Family fun t ↦ (∃ b, t = ofBuiltin b) ∨ IsBounds t := by
  refine family_of_anonymous ?name ?sound ?parts
  case name => simp [IsBounds, bounds, boundsTurned, maybe, Ty.name]
  case sound => simp [IsBounds, bounds, boundsTurned, maybe, IsSound]
  case parts => simp [IsBounds, bounds, boundsTurned, maybe, parts]

/-- The theorem at unions of records whose fields come in different orders. -/
theorem maybe_bounds_congruence : (Family fun t ↦ (∃ b, t = ofBuiltin b) ∨ IsBounds t) ∧
    IsBounds bounds ∧ IsBounds boundsTurned ∧ IsBounds (maybe bounds) ∧
    IsBounds (maybe boundsTurned) ∧ bounds.same boundsTurned = true ∧
    (maybe bounds).same (maybe boundsTurned) = true ∧
    bounds.isSubtype (maybe bounds) = boundsTurned.isSubtype (maybe boundsTurned) ∧
    ∀ v, (maybe bounds).accepts v = (maybe boundsTurned).accepts v := by
  have hb : IsBounds bounds ∧ IsBounds boundsTurned ∧ IsBounds (maybe bounds) ∧
      IsBounds (maybe boundsTurned) := by simp [IsBounds]
  have hsame : bounds.same boundsTurned = true ∧
      (maybe bounds).same (maybe boundsTurned) = true := by decide
  obtain ⟨hb₁, hb₂, hb₃, hb₄⟩ := hb
  have hcongr := (same_congruence family_isBounds).2.2.2
  refine ⟨family_isBounds, hb₁, hb₂, hb₃, hb₄, hsame.1, hsame.2, ?_, ?_⟩
  · exact (hcongr _ _ (.inr hb₁) (.inr hb₂) hsame.1).1 _ _ (.inr hb₃) (.inr hb₄) hsame.2
  · exact (hcongr _ _ (.inr hb₃) (.inr hb₄) hsame.2).2

end LabPlan.Ty
