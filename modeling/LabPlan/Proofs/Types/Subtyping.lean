import LabPlan.Proofs.Types.Comparison

/-! # Subtyping in a family

Subtyping tries sameness, `any`, unions and structure in a fixed order, and stops at the first that
applies.  In a family the order does not matter: each of three equivalences says what subtyping
means for one shape of the two types, whichever test has settled it.  Transitivity is by induction
on the sizes of all three types, taking unions apart before structures are compared. -/

namespace LabPlan.Ty

/-! ## One step -/

theorem isSubtype_of_same {s t : Ty} (h : s.same t = true) : s.isSubtype t = true := by
  rw [isSubtype_eq, h]
  rfl

theorem isSubtype_of_isAny {s t : Ty} (h : t.isAny = true) : s.isSubtype t = true := by
  rw [isSubtype_eq, h, Bool.or_true]
  rfl

section Family

variable {F : Ty → Prop} (hF : Family F)

include hF

theorem isAny_iff {t : Ty} (ht : F t) : t.isAny = true ↔ t = any := by
  refine ⟨fun h ↦ ?_, fun h ↦ h ▸ rfl⟩
  match t with
  | simple (some n) u =>
      have hn : n = Builtin.any.name := Builtin.name_of_ofName? (by simpa [isAny, builtin?] using h)
      exact hF.builtin (b := .any) ht (congrArg some hn)

theorem isSubtype_refl {t : Ty} (ht : F t) : t.isSubtype t = true :=
  isSubtype_of_same (same_refl hF ht)

theorem mem_of_mem_ancestors {s t : Ty} (hs : F s) (h : t ∈ s.ancestors) : F t := by
  match s with
  | simple n none => exact List.mem_singleton.1 h ▸ hs
  | simple n (some u) =>
      rw [ancestors_simple_some, List.mem_cons] at h
      rcases h with rfl | h
      · exact hs
      · exact mem_of_mem_ancestors (hF.parts hs (Option.mem_toList.2 rfl)) h
  | list _ _ | tuple _ _ | fields _ _ | keyed _ _ _ | union _ _ =>
      exact List.mem_singleton.1 h ▸ hs

/-- A simple type is told apart by its name. -/
theorem any_same_ancestors_iff {s : Ty} {m : Option String} {v : Option Ty} (hs : F s)
    (ht : F (simple m v)) :
    s.ancestors.any (·.same (simple m v)) = true ↔ simple m v ∈ s.ancestors := by
  rw [List.any_eq_true]
  constructor
  · rintro ⟨a, ha, hsame⟩
    obtain ⟨n, hn⟩ := Option.isSome_iff_exists.1 (hF.sound ht).1
    have haF := mem_of_mem_ancestors hF hs ha
    exact hF.named haF ht ((name_eq_of_same hsame).trans hn) hn ▸ ha
  · exact fun h ↦ ⟨_, h, same_refl hF ht⟩

theorem isNamed_string_iff {k : Ty} (hk : F k) :
    k.isNamed "string" = true ↔ k = ofBuiltin .string := by
  rw [isNamed, beq_iff_eq]
  exact ⟨fun h ↦ hF.builtin (b := .string) hk h, fun h ↦ h ▸ rfl⟩

theorem fits_of_same {s t : Ty} (hs : F s) (ht : F t) (hu : ¬ s.IsUnion) (h : s.same t = true) :
    Fits (fun a b ↦ a.isSubtype b = true) s t := by
  rcases alike_of_same hF hs ht h with rfl | hfits | ⟨xs, ys, rfl, -, -⟩
  · exact Fits.refl hu (hF.sound hs) fun a ha ↦ isSubtype_refl hF (hF.parts hs ha)
  · exact hfits.mono fun a _ b _ ↦ isSubtype_of_same
  · exact absurd trivial hu

theorem any_or_fits_of_isSubtype {s t : Ty} (hs : F s) (ht : F t) (hsu : ¬ s.IsUnion)
    (htu : ¬ t.IsUnion) (h : s.isSubtype t = true) :
    t = any ∨ Fits (fun a b ↦ a.isSubtype b = true) s t := by
  rw [isSubtype_eq, Bool.or_eq_true, Bool.or_eq_true] at h
  rcases h with (hsame | hany) | h
  · exact .inr (fits_of_same hF hs ht hsu hsame)
  · exact .inl ((isAny_iff hF ht).1 hany)
  · refine .inr ?_
    split at h
    · exact absurd trivial hsu
    · exact absurd trivial htu
    · exact (any_same_ancestors_iff hF hs ht).1 h
    · exact h
    · exact all_zip_iff.1 h
    · exact (fieldsFit_iff (hF.sound hs) (hF.sound ht)).1 h
    · rw [Bool.and_eq_true] at h
      exact ⟨key_eq_of_same hF hs ht h.1, h.2⟩
    · rw [Bool.and_eq_true, isNamed_string_iff hF (hF.parts ht List.mem_cons_self)] at h
      exact ⟨h.1, List.all_eq_true.1 h.2⟩
    · exact absurd h Bool.false_ne_true

theorem isSubtype_of_fits {s t : Ty} (hs : F s) (ht : F t)
    (h : Fits (fun a b ↦ a.isSubtype b = true) s t) : s.isSubtype t = true := by
  rw [isSubtype_eq, Bool.or_eq_true]
  refine .inr ?_
  cases s with
  | simple _ _ =>
      cases t with
      | simple _ _ => exact (any_same_ancestors_iff hF hs ht).2 h
      | _ => exact h.elim
  | list _ _ =>
      cases t with
      | list _ _ => exact h
      | _ => exact h.elim
  | tuple _ _ =>
      cases t with
      | tuple _ _ => exact all_zip_iff.2 h
      | _ => exact h.elim
  | fields _ _ =>
      cases t with
      | fields _ _ => exact (fieldsFit_iff (hF.sound hs) (hF.sound ht)).2 h
      | keyed _ k _ =>
          have hk := (isNamed_string_iff hF (hF.parts ht List.mem_cons_self)).2 h.1
          exact Bool.and_eq_true_iff.2 ⟨hk, List.all_eq_true.2 h.2⟩
      | _ => exact h.elim
  | keyed _ k _ =>
      cases t with
      | keyed _ _ _ =>
          have hk : k.same k = true := same_refl hF (hF.parts hs List.mem_cons_self)
          exact Bool.and_eq_true_iff.2 ⟨h.1 ▸ hk, h.2⟩
      | _ => exact h.elim
  | union _ _ => exact h.elim

/-- Two types that are no unions. -/
theorem isSubtype_iff_fits {s t : Ty} (hs : F s) (ht : F t) (hsu : ¬ s.IsUnion)
    (htu : ¬ t.IsUnion) :
    s.isSubtype t = true ↔ t = any ∨ Fits (fun a b ↦ a.isSubtype b = true) s t := by
  constructor
  · exact any_or_fits_of_isSubtype hF hs ht hsu htu
  · rintro (rfl | h)
    · exact isSubtype_of_isAny rfl
    · exact isSubtype_of_fits hF hs ht h

/-! ## Unions -/

/-- A type that is no union is below a union exactly if it is below some member. -/
theorem isSubtype_union_right_iff {s : Ty} {n : Option String} {ts : List Ty} (hs : F s)
    (ht : F (union n ts)) (hsu : ¬ s.IsUnion) :
    s.isSubtype (union n ts) = true ↔ ∃ t ∈ ts, s.isSubtype t = true := by
  have hsame : s.same (union n ts) = false := by
    refine Bool.eq_false_iff.2 fun h ↦ ?_
    rcases alike_of_same hF hs ht h with rfl | hfits | ⟨xs, ys, rfl, -, -⟩
    · exact hsu trivial
    · cases s <;> exact hfits
    · exact hsu trivial
  have hany : (union n ts).isAny = false := rfl
  rw [isSubtype_eq, hsame, hany, ← List.any_eq_true]
  cases s with
  | union _ _ => exact absurd trivial hsu
  | _ => rfl

/-- The members of a union are below what is the same as the union. -/
theorem exists_mem_of_same_union {n : Option String} {ms : List Ty} {t m : Ty}
    (hs : F (union n ms)) (ht : F t) (h : (union n ms).same t = true) (hm : m ∈ ms) :
    ∃ l ts, t = union l ts ∧ ∃ u ∈ ts, m.isSubtype u = true := by
  rcases alike_of_same hF hs ht h with rfl | hfits | ⟨xs, ys, hx, rfl, hxy⟩
  · exact ⟨n, ms, rfl, m, hm, isSubtype_refl hF (hF.parts hs hm)⟩
  · exact absurd hfits id
  · obtain ⟨rfl, rfl⟩ := union.inj hx
    obtain ⟨u, hu, hmu⟩ : ∃ u ∈ ys, m.same u = true := by
      clear hs ht h hx
      induction hxy with
      | nil => exact absurd hm List.not_mem_nil
      | cons hab _ ih =>
          rcases List.mem_cons.1 hm with rfl | hm
          · exact ⟨_, List.mem_cons_self, hab⟩
          · obtain ⟨u, hu, hmu⟩ := ih hm
            exact ⟨u, List.mem_cons_of_mem _ hu, hmu⟩
    exact ⟨none, ys, rfl, u, hu, isSubtype_of_same hmu⟩

mutual

/-- A union is below a type exactly if its members are. -/
theorem isSubtype_union_left_iff {n : Option String} {ms : List Ty} {t : Ty}
    (hs : F (union n ms)) (ht : F t) :
    (union n ms).isSubtype t = true ↔ ∀ m ∈ ms, m.isSubtype t = true := by
  rw [isSubtype_eq, Bool.or_eq_true, Bool.or_eq_true, List.all_eq_true]
  refine ⟨?_, .inr⟩
  rintro ((hsame | hany) | h) m hm
  · obtain ⟨l, ts, rfl, u, hu, hmu⟩ := exists_mem_of_same_union hF hs ht hsame hm
    exact isSubtype_union_of_mem (hF.parts hs hm) ht hu hmu
  · exact isSubtype_of_isAny hany
  · exact h m hm
termination_by 2 * sizeOf (union n ms)
decreasing_by
  have := sizeOf_part_lt (t := union n ms) hm
  omega

/-- A type is below a union if it is below some member. -/
theorem isSubtype_union_of_mem {s t : Ty} {n : Option String} {ts : List Ty} (hs : F s)
    (ht : F (union n ts)) (hm : t ∈ ts) (h : s.isSubtype t = true) :
    s.isSubtype (union n ts) = true := by
  by_cases hu : s.IsUnion
  · match s with
    | union l ms =>
        rw [isSubtype_eq, Bool.or_eq_true, List.all_eq_true]
        refine .inr fun m hm' ↦ ?_
        have hmt := (isSubtype_union_left_iff hs (hF.parts ht hm)).1 h m hm'
        exact isSubtype_union_of_mem (hF.parts hs hm') ht hm hmt
  · exact (isSubtype_union_right_iff hF hs ht hu).2 ⟨t, hm, h⟩
termination_by 2 * sizeOf s + 1
decreasing_by
  · omega
  · have := sizeOf_part_lt (t := union l ms) hm'
    omega

end

/-! ## Transitivity -/

theorem isSubtype_trans {s t u : Ty} (hs : F s) (ht : F t) (hu : F u)
    (h : s.isSubtype t = true) (k : t.isSubtype u = true) : s.isSubtype u = true := by
  by_cases hsu : s.IsUnion
  · match s with
    | union n ms =>
        rw [isSubtype_union_left_iff hF hs hu]
        intro m hm
        have hmt := (isSubtype_union_left_iff hF hs ht).1 h m hm
        exact isSubtype_trans (hF.parts hs hm) ht hu hmt k
  by_cases htu : t.IsUnion
  · match t with
    | union n ms =>
        obtain ⟨m, hm, hsm⟩ := (isSubtype_union_right_iff hF hs ht hsu).1 h
        have hmu := (isSubtype_union_left_iff hF ht hu).1 k m hm
        exact isSubtype_trans hs (hF.parts ht hm) hu hsm hmu
  by_cases huu : u.IsUnion
  · match u with
    | union n ms =>
        obtain ⟨m, hm, htm⟩ := (isSubtype_union_right_iff hF ht hu htu).1 k
        exact isSubtype_union_of_mem hF hs hu hm
          (isSubtype_trans hs ht (hF.parts hu hm) h htm)
  rw [isSubtype_iff_fits hF ht hu htu huu] at k
  rw [isSubtype_iff_fits hF hs hu hsu huu]
  rcases k with rfl | k
  · exact .inl rfl
  · rcases (isSubtype_iff_fits hF hs ht hsu htu).1 h with rfl | h
    · exact .inl (eq_any_of_fits_any k)
    · refine .inr (h.trans k fun a ha b hb c hc hab hbc ↦ ?_)
      exact isSubtype_trans (hF.parts hs ha) (hF.parts ht hb) (hF.parts hu hc) hab hbc
termination_by sizeOf s + sizeOf t + sizeOf u
decreasing_by
  · have := sizeOf_part_lt (t := union n ms) hm
    omega
  · have := sizeOf_part_lt (t := union n ms) hm
    omega
  · have := sizeOf_part_lt (t := union n ms) hm
    omega
  · have := sizeOf_part_lt ha
    have := sizeOf_part_lt hb
    have := sizeOf_part_lt hc
    omega

end Family

end LabPlan.Ty
