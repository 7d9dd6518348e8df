import LabPlan.Proofs.Types.Subtyping
import LabPlan.Types.Rules

/-! # The comparison follows the rules

In a family, the comparison of types decides the least relation that the rules of subtyping
describe.  So it is an order up to sameness, in which a union is the least upper bound of its
members. -/

namespace LabPlan.Ty

variable {F : Ty → Prop}

/-! ## What is found follows from the rules -/

theorem sub_of_mem_ancestors (hF : Family F) {s t : Ty} (hs : F s) (h : t ∈ s.ancestors) :
    Sub F s t := by
  match s with
  | simple n none => exact List.mem_singleton.1 h ▸ .refl _
  | simple n (some u) =>
      have hu : F u := hF.parts hs (Option.mem_toList.2 rfl)
      rw [ancestors_simple_some, List.mem_cons] at h
      rcases h with rfl | h
      · exact .refl _
      · exact .trans hu (.super n u) (sub_of_mem_ancestors hF hu h)
  | list _ _ | tuple _ _ | fields _ _ | keyed _ _ _ | union _ _ =>
      exact List.mem_singleton.1 h ▸ .refl _

theorem sub_of_fits (hF : Family F) {s t : Ty} (hs : F s) (h : Fits (Sub F) s t) : Sub F s t := by
  match s, t with
  | simple _ _, simple _ _ => exact sub_of_mem_ancestors hF hs h
  | list n _, list m _ => exact .list n m h
  | tuple n _, tuple m _ =>
      exact .tuple n m h.length_eq fun p hp ↦ (List.forall₂_iff_zip.1 h).2 hp
  | fields n _, fields m _ => exact .fields n m h.1 h.2
  | keyed n k _, keyed m _ _ =>
      obtain ⟨rfl, hv⟩ := h
      exact .keyed n m k hv
  | fields n _, keyed m _ _ =>
      obtain ⟨rfl, hv⟩ := h
      exact .record n m hv

theorem sub_of_isSubtype (hF : Family F) {s t : Ty} (hs : F s) (ht : F t)
    (h : s.isSubtype t = true) : Sub F s t := by
  by_cases hsu : s.IsUnion
  · obtain ⟨n, ms, he⟩ := hsu.exists_eq
    rw [he] at hs h ⊢
    refine .union n fun m hm ↦ ?_
    exact sub_of_isSubtype hF (hF.parts hs hm) ht ((isSubtype_union_left_iff hF hs ht).1 h m hm)
  by_cases htu : t.IsUnion
  · obtain ⟨n, ms, he⟩ := htu.exists_eq
    rw [he] at ht h ⊢
    obtain ⟨m, hm, hsm⟩ := (isSubtype_union_right_iff hF hs ht hsu).1 h
    have hmF : F m := hF.parts ht hm
    exact .trans hmF (sub_of_isSubtype hF hs hmF hsm) (.member n hm)
  rcases (isSubtype_iff_fits hF hs ht hsu htu).1 h with rfl | h
  · exact .any s
  · refine sub_of_fits hF hs (h.mono fun a ha b hb hab ↦ ?_)
    exact sub_of_isSubtype hF (hF.parts hs ha) (hF.parts ht hb) hab
termination_by sizeOf s + sizeOf t
decreasing_by
  · have := sizeOf_part_lt (t := union n ms) hm
    rw [he]
    omega
  · have := sizeOf_part_lt (t := union n ms) hm
    rw [he]
    omega
  · have := sizeOf_part_lt ha
    have := sizeOf_part_lt hb
    omega

/-! ## What follows from the rules is found -/

theorem isSubtype_super (hF : Family F) {n : Option String} {t : Ty} (hs : F (simple n (some t))) :
    (simple n (some t)).isSubtype t = true := by
  have ht : F t := hF.parts hs (Option.mem_toList.2 rfl)
  match t, (hF.sound hs).2 t rfl with
  | simple m v, _ =>
      refine isSubtype_of_fits hF hs ht ?_
      exact List.mem_cons_of_mem _ (mem_ancestors_self (simple m v))

theorem isSubtype_of_sub (hF : Family F) {s t : Ty} (hs : F s) (ht : F t) (h : Sub F s t) :
    s.isSubtype t = true := by
  induction h with
  | refl t => exact isSubtype_refl hF hs
  | trans hm _ _ ih ih' => exact isSubtype_trans hF hs hm ht (ih hs hm) (ih' hm ht)
  | any t => exact isSubtype_of_isAny rfl
  | super n t => exact isSubtype_super hF hs
  | member n hm => exact isSubtype_union_of_mem hF hs ht hm (isSubtype_refl hF hs)
  | union n _ ih =>
      exact (isSubtype_union_left_iff hF hs ht).2 fun m hm ↦ ih m hm (hF.parts hs hm) ht
  | list n m _ ih =>
      refine isSubtype_of_fits hF hs ht ?_
      exact ih (hF.parts hs List.mem_cons_self) (hF.parts ht List.mem_cons_self)
  | tuple n m hl _ ih =>
      refine isSubtype_of_fits hF hs ht (List.forall₂_iff_zip.2 ⟨hl, fun hp ↦ ?_⟩)
      have hmem := List.of_mem_zip hp
      exact ih _ hp (hF.parts hs hmem.1) (hF.parts ht hmem.2)
  | fields n m hn _ ih =>
      refine isSubtype_of_fits hF hs ht ⟨hn, fun f hf g hg hname ↦ ?_⟩
      exact ih f hf g hg hname (hF.parts hs (mem_parts_fields hf))
        (hF.parts ht (mem_parts_fields hg))
  | keyed n m k _ ih =>
      refine isSubtype_of_fits hF hs ht ⟨rfl, ?_⟩
      exact ih (hF.parts hs (mem_parts_value n k _)) (hF.parts ht (mem_parts_value m k _))
  | record n m _ ih =>
      refine isSubtype_of_fits hF hs ht ⟨rfl, fun f hf ↦ ?_⟩
      exact ih f hf (hF.parts hs (mem_parts_fields hf)) (hF.parts ht (mem_parts_value m _ _))

/-- In a family, subtyping is the least relation with the rules.  It is reflexive and transitive,
and a union is the least upper bound of its members. -/
theorem isSubtype_iff_sub (hF : Family F) :
    (∀ s t, F s → F t → (s.isSubtype t = true ↔ Sub F s t)) ∧
      (∀ t, F t → t.isSubtype t = true) ∧
      (∀ s t u, F s → F t → F u → s.isSubtype t = true → t.isSubtype u = true →
        s.isSubtype u = true) ∧
      ∀ n ms, F (union n ms) → (∀ m ∈ ms, m.isSubtype (union n ms) = true) ∧
        ∀ t, F t → (∀ m ∈ ms, m.isSubtype t = true) → (union n ms).isSubtype t = true := by
  refine ⟨fun s t hs ht ↦ ⟨sub_of_isSubtype hF hs ht, isSubtype_of_sub hF hs ht⟩,
    fun t ht ↦ isSubtype_refl hF ht, fun s t u hs ht hu ↦ isSubtype_trans hF hs ht hu,
    fun n ms hu ↦ ⟨fun m hm ↦ ?_, fun t ht ↦ (isSubtype_union_left_iff hF hu ht).2⟩⟩
  have hmF : F m := hF.parts hu hm
  exact isSubtype_union_of_mem hF hmF hu hm (isSubtype_refl hF hmF)

/-! ## A family -/

/-- A named record of two numbers. -/
def point : Ty := fields (some "point") [("x", ofBuiltin .integer), ("y", ofBuiltin .number)]

/-- Numbers under names. -/
def table : Ty := keyed none (ofBuiltin .string) (ofBuiltin .number)

/-- A table that may be missing. -/
def maybeTable : Ty := union none [ofBuiltin .null, table]

/-- The built-in types and the three above. -/
def IsSample (t : Ty) : Prop := (∃ b, t = ofBuiltin b) ∨ t = point ∨ t = table ∨ t = maybeTable

theorem parts_ofBuiltin (b : Builtin) : (ofBuiltin b).parts = (b.super?.map ofBuiltin).toList := by
  cases b <;> rfl

theorem isSound_ofBuiltin (b : Builtin) : (ofBuiltin b).IsSound := by
  cases b <;> simp [ofBuiltin, number, any, IsSound, isSimple]

theorem IsSample.of_name {t : Ty} {n : String} (ht : IsSample t) (hn : t.name = some n) :
    (∃ b, t = ofBuiltin b ∧ n = b.name) ∨ t = point ∧ n = "point" := by
  rcases ht with ⟨b, rfl⟩ | rfl | rfl | rfl
  · exact .inl ⟨b, rfl, Option.some.inj (hn.symm.trans (name_ofBuiltin b))⟩
  · exact .inr ⟨rfl, (Option.some.inj hn).symm⟩
  · cases hn
  · cases hn

theorem name_ne_point (b : Builtin) : b.name ≠ "point" := by
  cases b <;> decide

theorem family_isSample : Family IsSample where
  parts := by
    rintro s t (⟨b, rfl⟩ | rfl | rfl | rfl) hs
    · rw [parts_ofBuiltin, Option.mem_toList] at hs
      obtain ⟨c, -, rfl⟩ := Option.map_eq_some_iff.1 hs
      exact .inl ⟨c, rfl⟩
    · rcases List.mem_pair.1 hs with rfl | rfl
      · exact .inl ⟨.integer, rfl⟩
      · exact .inl ⟨.number, rfl⟩
    · rcases List.mem_pair.1 hs with rfl | rfl
      · exact .inl ⟨_, rfl⟩
      · exact .inl ⟨_, rfl⟩
    · rcases List.mem_pair.1 hs with rfl | rfl
      · exact .inl ⟨_, rfl⟩
      · exact .inr (.inr (.inl rfl))
  sound := by
    rintro t (⟨b, rfl⟩ | rfl | rfl | rfl)
    · exact isSound_ofBuiltin b
    · simp [point, IsSound]
    · exact .inl rfl
    · trivial
  named := by
    intro s t n hs ht hn hm
    rcases hs.of_name hn with ⟨b, rfl, rfl⟩ | ⟨rfl, rfl⟩
    · rcases ht.of_name hm with ⟨c, rfl, hc⟩ | ⟨rfl, hc⟩
      · rw [Builtin.name_injective hc]
      · exact absurd hc (name_ne_point b)
    · rcases ht.of_name hm with ⟨c, rfl, hc⟩ | ⟨rfl, -⟩
      · exact absurd hc.symm (name_ne_point c)
      · rfl
  builtin := by
    intro t b ht hb
    rcases ht.of_name hb with ⟨c, rfl, hc⟩ | ⟨rfl, hc⟩
    · rw [Builtin.name_injective hc]
    · exact absurd hc (name_ne_point b)

/-- The rules at a record, which is below a union by way of a mapping from strings. -/
theorem point_sub_maybeTable :
    Family IsSample ∧ IsSample point ∧ IsSample maybeTable ∧ Sub IsSample point maybeTable := by
  have hp : IsSample point := .inr (.inl rfl)
  have hm : IsSample maybeTable := .inr (.inr (.inr rfl))
  have h : point.isSubtype maybeTable = true := by decide +kernel
  exact ⟨family_isSample, hp, hm, ((isSubtype_iff_sub family_isSample).1 _ _ hp hm).1 h⟩

end LabPlan.Ty
