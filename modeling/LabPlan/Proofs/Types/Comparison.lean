import LabPlan.Types.Family
import LabPlan.Types.Subtype
import Mathlib.Data.List.Forall2
import Mathlib.Data.List.Nodup
import Mathlib.Data.List.Perm.Subperm

/-! # Comparing the types of a family

In a family, subtyping can be read off the two types.  A union is below a type if its members are;
a type that is no union is below a union if it is below a member; and of two types that are no
unions, the second is `any` or the first *fits* the second part by part.  Reflexivity and
transitivity follow, although the comparison has no rule for them. -/

namespace LabPlan

namespace Builtin

theorem name_of_ofName? {n : String} {b : Builtin} (h : ofName? n = some b) : n = b.name := by
  have := List.find?_some h
  exact (eq_of_beq this).symm

theorem name_injective : Function.Injective name := by
  intro b c h
  exact Option.some.inj (by rw [← ofName?_name, h, ofName?_name])

end Builtin

namespace Ty

/-! ## Parts -/

theorem sizeOf_snd_lt {f : String × Ty} {fs : List (String × Ty)} (h : f ∈ fs) :
    sizeOf f.2 < sizeOf fs := by
  obtain ⟨n, t⟩ := f
  have := List.sizeOf_lt_of_mem h
  simp only [Prod.mk.sizeOf_spec] at this ⊢
  omega

theorem sizeOf_part_lt {s t : Ty} (h : s ∈ t.parts) : sizeOf s < sizeOf t := by
  cases t with
  | simple n u =>
      obtain rfl : u = some s := by simpa [parts] using h
      simp only [simple.sizeOf_spec, Option.some.sizeOf_spec]
      omega
  | list n u =>
      obtain rfl : s = u := by simpa [parts] using h
      simp only [list.sizeOf_spec]
      omega
  | tuple n ts =>
      have := List.sizeOf_lt_of_mem (show s ∈ ts from h)
      simp only [tuple.sizeOf_spec]
      omega
  | fields n fs =>
      obtain ⟨f, hf, rfl⟩ := List.mem_map.1 h
      have := sizeOf_snd_lt hf
      simp only [fields.sizeOf_spec]
      omega
  | keyed n k v =>
      rcases List.mem_cons.1 h with rfl | h
      · simp only [keyed.sizeOf_spec]
        omega
      · obtain rfl := List.mem_singleton.1 h
        simp only [keyed.sizeOf_spec]
        omega
  | union n ts =>
      have := List.sizeOf_lt_of_mem (show s ∈ ts from h)
      simp only [union.sizeOf_spec]
      omega

/-- The type is a union. -/
def IsUnion : Ty → Prop
  | union _ _ => True
  | _ => False

theorem IsUnion.exists_eq {t : Ty} (h : t.IsUnion) : ∃ n ms, t = union n ms := by
  cases t with
  | union n ms => exact ⟨n, ms, rfl⟩
  | _ => exact h.elim

theorem mem_ancestors_self (t : Ty) : t ∈ t.ancestors := by
  cases t with
  | simple n s => cases s <;> simp [ancestors]
  | _ => simp [ancestors]

theorem ancestors_simple_some (n : Option String) (s : Ty) :
    (simple n (some s)).ancestors = simple n (some s) :: s.ancestors := rfl

theorem mem_ancestors_trans {s t u : Ty} (h : t ∈ s.ancestors) (k : u ∈ t.ancestors) :
    u ∈ s.ancestors := by
  match s with
  | simple n none =>
      obtain rfl := List.mem_singleton.1 h
      exact k
  | simple n (some s') =>
      rw [ancestors_simple_some, List.mem_cons] at h
      rcases h with rfl | h
      · exact k
      · exact List.mem_cons_of_mem _ (mem_ancestors_trans h k)
  | list _ _ | tuple _ _ | fields _ _ | keyed _ _ _ | union _ _ =>
      obtain rfl := List.mem_singleton.1 h
      exact k

/-! ## Fields -/

/-- Two lists of fields have the same names, and fields of one name are related. -/
def FieldsFit (R : Ty → Ty → Prop) (fs gs : List (String × Ty)) : Prop :=
  (∀ n, n ∈ fs.map Prod.fst ↔ n ∈ gs.map Prod.fst) ∧ ∀ f ∈ fs, ∀ g ∈ gs, f.1 = g.1 → R f.2 g.2

theorem FieldsFit.exists_right {R : Ty → Ty → Prop} {fs gs : List (String × Ty)}
    (h : FieldsFit R fs gs) {f : String × Ty} (hf : f ∈ fs) : ∃ g ∈ gs, f.1 = g.1 ∧ R f.2 g.2 := by
  obtain ⟨g, hg, hn⟩ := List.mem_map.1 ((h.1 f.1).1 (List.mem_map_of_mem hf))
  exact ⟨g, hg, hn.symm, h.2 f hf g hg hn.symm⟩

/-- A search for every field on the right among as many fields on the left.  Since names are
distinct, none is left over. -/
theorem fieldsFit_iff {R : Ty → Ty → Bool} {fs gs : List (String × Ty)}
    (hf : (fs.map Prod.fst).Nodup) (hg : (gs.map Prod.fst).Nodup) :
    (fs.length == gs.length && gs.all fun g ↦ fs.any fun f ↦ f.1 == g.1 && R f.2 g.2) = true ↔
      FieldsFit (fun s t ↦ R s t = true) fs gs := by
  simp only [Bool.and_eq_true, beq_iff_eq, List.all_eq_true, List.any_eq_true]
  constructor
  · rintro ⟨hl, h⟩
    have hsub : gs.map Prod.fst ⊆ fs.map Prod.fst := by
      intro n hn
      obtain ⟨g, hgm, rfl⟩ := List.mem_map.1 hn
      obtain ⟨f, hfm, hname, -⟩ := h g hgm
      exact List.mem_map.2 ⟨f, hfm, hname⟩
    have hperm := (hg.subperm hsub).perm_of_length_le (by simp [hl])
    refine ⟨fun n ↦ hperm.mem_iff.symm, fun f hfm g hgm hname ↦ ?_⟩
    obtain ⟨f', hfm', hname', hR⟩ := h g hgm
    rwa [List.inj_on_of_nodup_map hf hfm hfm' (hname.trans hname'.symm)]
  · rintro ⟨hn, h⟩
    have hperm := (List.perm_ext_iff_of_nodup hf hg).2 hn
    refine ⟨by simpa using hperm.length_eq, fun g hgm ↦ ?_⟩
    obtain ⟨f, hfm, hname⟩ := List.mem_map.1 ((hn g.1).2 (List.mem_map_of_mem hgm))
    exact ⟨f, hfm, hname, h f hfm g hgm hname⟩

/-! ## Fitting part by part -/

/-- One type that is no union fits another one: a simple type its super-types, a structure one of
its own kind whose parts are related to its own, and fields a mapping from strings. -/
def Fits (R : Ty → Ty → Prop) : Ty → Ty → Prop
  | simple n u, simple m v => simple m v ∈ (simple n u).ancestors
  | list _ x, list _ y => R x y
  | tuple _ xs, tuple _ ys => List.Forall₂ R xs ys
  | fields _ fs, fields _ gs => FieldsFit R fs gs
  | keyed _ k v, keyed _ l w => k = l ∧ R v w
  | fields _ fs, keyed _ k v => k = ofBuiltin .string ∧ ∀ f ∈ fs, R f.2 v
  | _, _ => False

theorem forall₂_imp_of_mem {α β : Type} {R S : α → β → Prop} {xs : List α} {ys : List β}
    (h : List.Forall₂ R xs ys) (hRS : ∀ a ∈ xs, ∀ b ∈ ys, R a b → S a b) :
    List.Forall₂ S xs ys := by
  induction h with
  | nil => exact .nil
  | cons h _ ih =>
      refine .cons (hRS _ List.mem_cons_self _ List.mem_cons_self h) (ih fun a ha b hb ↦ ?_)
      exact hRS a (List.mem_cons_of_mem _ ha) b (List.mem_cons_of_mem _ hb)

theorem forall₂_trans_of_mem {α β γ : Type} {R : α → β → Prop} {S : β → γ → Prop}
    {T : α → γ → Prop} {xs : List α} {ys : List β} {zs : List γ} (h : List.Forall₂ R xs ys)
    (k : List.Forall₂ S ys zs)
    (hRS : ∀ a ∈ xs, ∀ b ∈ ys, ∀ c ∈ zs, R a b → S b c → T a c) : List.Forall₂ T xs zs := by
  induction h generalizing zs with
  | nil =>
      cases k
      exact .nil
  | cons h _ ih =>
      cases k with
      | cons k ks =>
          refine .cons (hRS _ List.mem_cons_self _ List.mem_cons_self _ List.mem_cons_self h k) ?_
          refine ih ks fun a ha b hb c hc ↦ ?_
          exact hRS a (List.mem_cons_of_mem _ ha) b (List.mem_cons_of_mem _ hb) c
            (List.mem_cons_of_mem _ hc)

theorem mem_parts_fields {n : Option String} {fs : List (String × Ty)} {f : String × Ty}
    (h : f ∈ fs) : f.2 ∈ (fields n fs).parts := List.mem_map_of_mem h

theorem mem_parts_value (n : Option String) (k v : Ty) : v ∈ (keyed n k v).parts :=
  List.mem_cons_of_mem _ List.mem_cons_self

theorem Fits.mono {R S : Ty → Ty → Prop} {s t : Ty} (h : Fits R s t)
    (hRS : ∀ a ∈ s.parts, ∀ b ∈ t.parts, R a b → S a b) : Fits S s t := by
  match s, t with
  | simple _ _, simple _ _ => exact h
  | list _ x, list _ y => exact hRS x List.mem_cons_self y List.mem_cons_self h
  | tuple _ xs, tuple _ ys => exact forall₂_imp_of_mem h hRS
  | fields _ fs, fields _ gs =>
      refine ⟨h.1, fun f hf g hg hn ↦ ?_⟩
      exact hRS _ (mem_parts_fields hf) _ (mem_parts_fields hg) (h.2 f hf g hg hn)
  | keyed n k v, keyed m l w =>
      exact ⟨h.1, hRS v (mem_parts_value n k v) w (mem_parts_value m l w) h.2⟩
  | fields _ fs, keyed m l w =>
      exact ⟨h.1, fun f hf ↦ hRS _ (mem_parts_fields hf) w (mem_parts_value m l w) (h.2 f hf)⟩

theorem Fits.trans {R S T : Ty → Ty → Prop} {s t u : Ty} (h : Fits R s t) (k : Fits S t u)
    (hRS : ∀ a ∈ s.parts, ∀ b ∈ t.parts, ∀ c ∈ u.parts, R a b → S b c → T a c) : Fits T s u := by
  match s, t, u with
  | simple _ _, simple _ _, simple _ _ => exact mem_ancestors_trans h k
  | list _ x, list _ y, list _ z =>
      exact hRS x List.mem_cons_self y List.mem_cons_self z List.mem_cons_self h k
  | tuple _ xs, tuple _ ys, tuple _ zs => exact forall₂_trans_of_mem h k hRS
  | fields _ fs, fields _ gs, fields _ hs =>
      refine ⟨fun n ↦ (h.1 n).trans (k.1 n), fun f hf x hx hn ↦ ?_⟩
      obtain ⟨g, hg, hname, hR⟩ := h.exists_right hf
      exact hRS _ (mem_parts_fields hf) _ (mem_parts_fields hg) _ (mem_parts_fields hx) hR
        (k.2 g hg x hx (hname.symm.trans hn))
  | fields _ fs, fields _ gs, keyed m l w =>
      refine ⟨k.1, fun f hf ↦ ?_⟩
      obtain ⟨g, hg, -, hR⟩ := h.exists_right hf
      exact hRS _ (mem_parts_fields hf) _ (mem_parts_fields hg) w (mem_parts_value m l w) hR
        (k.2 g hg)
  | fields _ fs, keyed n k' v, keyed m l w =>
      refine ⟨k.1.symm.trans h.1, fun f hf ↦ ?_⟩
      exact hRS _ (mem_parts_fields hf) v (mem_parts_value n k' v) w (mem_parts_value m l w)
        (h.2 f hf) k.2
  | keyed n₁ k₁ v, keyed n₂ k₂ w, keyed n₃ k₃ x =>
      refine ⟨h.1.trans k.1, ?_⟩
      exact hRS v (mem_parts_value n₁ k₁ v) w (mem_parts_value n₂ k₂ w) x
        (mem_parts_value n₃ k₃ x) h.2 k.2

theorem Fits.refl {R : Ty → Ty → Prop} {t : Ty} (hu : ¬ t.IsUnion) (ht : t.IsSound)
    (hR : ∀ a ∈ t.parts, R a a) : Fits R t t := by
  match t with
  | simple n u => exact mem_ancestors_self (simple n u)
  | list _ x => exact hR x List.mem_cons_self
  | tuple _ xs => exact List.forall₂_same.2 hR
  | fields _ fs =>
      refine ⟨fun n ↦ Iff.rfl, fun f hf g hg hn ↦ ?_⟩
      obtain rfl : f = g := List.inj_on_of_nodup_map ht hf hg hn
      exact hR f.2 (mem_parts_fields hf)
  | keyed n k v => exact ⟨rfl, hR v (mem_parts_value n k v)⟩
  | union _ _ => exact absurd trivial hu

/-- Only `any` is above `any`. -/
theorem eq_any_of_fits_any {R : Ty → Ty → Prop} {t : Ty} (h : Fits R any t) : t = any := by
  match t with
  | simple _ _ => exact List.mem_singleton.1 h

/-! ## Sameness -/

theorem all_zip_iff {α β : Type} {R : α → β → Bool} {xs : List α} {ys : List β} :
    (xs.length == ys.length && (xs.zip ys).all fun p ↦ R p.1 p.2) = true ↔
      List.Forall₂ (fun s t ↦ R s t = true) xs ys := by
  rw [List.forall₂_iff_zip, Bool.and_eq_true, beq_iff_eq, List.all_eq_true]
  exact and_congr_right fun _ ↦ ⟨fun h a b hp ↦ h (a, b) hp, fun h p hp ↦ h hp⟩

theorem name_eq_of_same {s t : Ty} (h : s.same t = true) : s.name = t.name := by
  rw [same.eq_def] at h
  dsimp only at h
  split at h
  · rename_i a b hs ht
    rw [hs, ht, eq_of_beq h]
  · rename_i hs ht
    rw [hs, ht]
  · exact absurd h Bool.false_ne_true

theorem same_of_name {s t : Ty} {n : String} (hs : s.name = some n) (ht : t.name = some n) :
    s.same t = true := by
  rw [same.eq_def]
  dsimp only
  rw [hs, ht]
  exact beq_self_eq_true n

theorem same_list {x y : Ty} : (list none x).same (list none y) = x.same y := rfl

theorem same_tuple {xs ys : List Ty} : (tuple none xs).same (tuple none ys) = true ↔
    List.Forall₂ (fun s t ↦ s.same t = true) xs ys := by
  rw [← all_zip_iff, ← sameAll_eq]
  rfl

theorem same_union {xs ys : List Ty} : (union none xs).same (union none ys) = true ↔
    List.Forall₂ (fun s t ↦ s.same t = true) xs ys := by
  rw [← all_zip_iff, ← sameAll_eq]
  rfl

theorem same_keyed {k v l w : Ty} :
    (keyed none k v).same (keyed none l w) = (k.same l && v.same w) := rfl

theorem same_fields {fs gs : List (String × Ty)} (hf : (fs.map Prod.fst).Nodup)
    (hg : (gs.map Prod.fst).Nodup) : (fields none fs).same (fields none gs) = true ↔
      FieldsFit (fun s t ↦ s.same t = true) fs gs := by
  have h := fieldsFit_iff (R := fun s t ↦ t.same s) hg hf
  rw [BEq.comm, ← sameFields_eq] at h
  refine h.trans ⟨fun h ↦ ?_, fun h ↦ ?_⟩
  · exact ⟨fun n ↦ (h.1 n).symm, fun f hf g hg hn ↦ h.2 g hg f hf hn.symm⟩
  · exact ⟨fun n ↦ (h.1 n).symm, fun f hf g hg hn ↦ h.2 g hg f hf hn.symm⟩

/-- Two anonymous types of one kind whose parts are related one by one. -/
def Alike (R : Ty → Ty → Prop) : Ty → Ty → Prop
  | list none x, list none y => R x y
  | tuple none xs, tuple none ys => List.Forall₂ R xs ys
  | fields none fs, fields none gs => FieldsFit R fs gs
  | keyed none k v, keyed none l w => k = l ∧ R v w
  | union none xs, union none ys => List.Forall₂ R xs ys
  | _, _ => False

/-- Types that are alike fit, unless they are unions. -/
theorem Alike.fits_or_unions {R : Ty → Ty → Prop} {s t : Ty} (h : Alike R s t) :
    Fits R s t ∨ ∃ xs ys, s = union none xs ∧ t = union none ys ∧ List.Forall₂ R xs ys := by
  match s, t with
  | list none _, list none _ | tuple none _, tuple none _ | fields none _, fields none _
  | keyed none _ _, keyed none _ _ => exact .inl h
  | union none xs, union none ys => exact .inr ⟨xs, ys, rfl, rfl, h⟩

/-! ## Families -/

section Family

variable {F : Ty → Prop} (hF : Family F)

include hF

theorem same_refl {t : Ty} (ht : F t) : t.same t = true := by
  cases hn : t.name with
  | some n => exact same_of_name hn hn
  | none =>
      have hpart (a : Ty) (ha : a ∈ t.parts) : a.same a = true := same_refl (hF.parts ht ha)
      match t, hn with
      | simple none u, _ => exact absurd (hF.sound ht).1 Bool.false_ne_true
      | list none x, _ =>
          rw [same_list]
          exact hpart x List.mem_cons_self
      | tuple none xs, _ => exact same_tuple.2 (List.forall₂_same.2 hpart)
      | fields none fs, _ =>
          have hs : (fs.map Prod.fst).Nodup := hF.sound ht
          refine (same_fields hs hs).2 ⟨fun n ↦ Iff.rfl, fun f hf g hg hn ↦ ?_⟩
          obtain rfl : f = g := List.inj_on_of_nodup_map hs hf hg hn
          exact hpart f.2 (mem_parts_fields hf)
      | keyed none k v, _ =>
          rw [same_keyed, hpart k List.mem_cons_self, hpart v (mem_parts_value none k v)]
          rfl
      | union none xs, _ => exact same_union.2 (List.forall₂_same.2 hpart)
termination_by sizeOf t
decreasing_by exact sizeOf_part_lt ha

/-- Keys are built-in types, which are told apart by their names. -/
theorem key_eq_of_same {n m : Option String} {k l v w : Ty} (hs : F (keyed n k v))
    (ht : F (keyed m l w)) (h : k.same l = true) : k = l := by
  have hk : F k := hF.parts hs List.mem_cons_self
  have hl : F l := hF.parts ht List.mem_cons_self
  obtain ⟨b, rfl⟩ : ∃ b, k = ofBuiltin b := by
    rcases hF.sound hs with hk | hk
    · exact ⟨_, hk⟩
    · exact ⟨_, hk⟩
  exact hF.named hk hl (name_ofBuiltin b) ((name_eq_of_same h).symm.trans (name_ofBuiltin b))

/-- Sameness is equality, or an anonymous structure of parts that are the same. -/
theorem same_iff {s t : Ty} (hs : F s) (ht : F t) :
    s.same t = true ↔ s = t ∨ Alike (fun a b ↦ a.same b = true) s t := by
  constructor
  · intro h
    have hname := name_eq_of_same h
    cases hn : s.name with
    | some n => exact .inl (hF.named hs ht hn (hname.symm.trans hn))
    | none =>
        refine .inr ?_
        rw [hn] at hname
        match s, t, hn, hname.symm with
        | simple none u, _, _, _ => exact absurd (hF.sound hs).1 Bool.false_ne_true
        | list none x, list none y, _, _ => exact h
        | tuple none xs, tuple none ys, _, _ => exact same_tuple.1 h
        | fields none fs, fields none gs, _, _ =>
            exact (same_fields (hF.sound hs) (hF.sound ht)).1 h
        | keyed none k v, keyed none l w, _, _ =>
            rw [same_keyed, Bool.and_eq_true] at h
            exact ⟨key_eq_of_same hF hs ht h.1, h.2⟩
        | union none xs, union none ys, _, _ => exact same_union.1 h
  · rintro (rfl | h)
    · exact same_refl hF hs
    · match s, t with
      | list none x, list none y => exact h
      | tuple none xs, tuple none ys => exact same_tuple.2 h
      | fields none fs, fields none gs =>
          exact (same_fields (hF.sound hs) (hF.sound ht)).2 h
      | keyed none k v, keyed none l w =>
          obtain ⟨rfl, hv⟩ := h
          rw [same_keyed, same_refl hF (hF.parts hs List.mem_cons_self), hv]
          rfl
      | union none xs, union none ys => exact same_union.2 h

/-- Types that are the same are equal, or have the same structure. -/
theorem alike_of_same {s t : Ty} (hs : F s) (ht : F t) (h : s.same t = true) :
    s = t ∨ Fits (fun a b ↦ a.same b = true) s t ∨
      ∃ xs ys, s = union none xs ∧ t = union none ys ∧
        List.Forall₂ (fun a b ↦ a.same b = true) xs ys := by
  rcases (same_iff hF hs ht).1 h with rfl | h
  · exact .inl rfl
  · exact .inr h.fits_or_unions

end Family

end Ty

end LabPlan
