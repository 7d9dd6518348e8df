import LabPlan.Description.Checked
import Mathlib.Data.List.Forall2

/-! # Readings without problems

A reading without problems is a plain result.  Such a reading is put together from such readings
only, so it can be taken apart step by step. -/

namespace LabPlan.Checked

variable {α β : Type}

theorem eq_pure_iff {c : Checked α} {a : α} : c = pure a ↔ c.problems = [] ∧ c.result = a := by
  constructor
  · rintro rfl
    exact ⟨rfl, rfl⟩
  · obtain ⟨ps, b⟩ := c
    rintro ⟨rfl, rfl⟩
    rfl

instance : LawfulMonad Checked := LawfulMonad.mk' Checked
  (fun c ↦ by
    change Checked.mk (c.problems ++ []) c.result = c
    rw [List.append_nil])
  (fun _ _ ↦ rfl)
  (fun c f g ↦ by
    change Checked.mk ((c.problems ++ (f c.result).problems) ++ _) _ = Checked.mk _ _
    rw [List.append_assoc]
    rfl)

/-- A reading without problems has one result. -/
theorem pure_inj {a b : α} : (pure a : Checked α) = pure b ↔ a = b := by
  simp [eq_pure_iff]

/-- A reading in two steps has no problems if both steps have none. -/
theorem bind_eq_pure_iff {c : Checked α} {f : α → Checked β} {b : β} :
    (c >>= f) = pure b ↔ ∃ a, c = pure a ∧ f a = pure b := by
  simp only [eq_pure_iff, problems_bind, result_bind, List.append_eq_nil_iff]
  constructor
  · rintro ⟨⟨hc, hf⟩, hb⟩
    exact ⟨c.result, ⟨hc, rfl⟩, hf, hb⟩
  · rintro ⟨a, ⟨hc, rfl⟩, hf, hb⟩
    exact ⟨⟨hc, hf⟩, hb⟩

theorem notes_eq_pure_iff {ps : List Problem} {u : Unit} : notes ps = pure u ↔ ps = [] := by
  simp [eq_pure_iff]

theorem note_ne_pure {p : Problem} {u : Unit} : note p ≠ pure u := by
  simp [eq_pure_iff]

/-- A reading that notes a problem has one, whatever comes after. -/
theorem note_bind_ne_pure {p : Problem} {f : Unit → Checked α} {a : α} :
    (note p >>= f) ≠ pure a := by
  intro h
  obtain ⟨_, hnote, -⟩ := bind_eq_pure_iff.1 h
  exact note_ne_pure hnote

theorem reject_ne_pure {p : Problem} {o : Option α} : (reject p : Checked (Option α)) ≠ pure o := by
  simp [eq_pure_iff]

/-- A reading succeeds exactly if it has no problems. -/
theorem toExcept_eq_ok_iff {c : Checked α} {a : α} : c.toExcept = .ok a ↔ c = pure a := by
  rw [toExcept, eq_pure_iff]
  cases c.problems with
  | nil => simp
  | cons p ps => simp

/-- A reading fails for a reason. -/
theorem toExcept_ne_error_nil {c : Checked α} : c.toExcept ≠ .error [] := by
  rw [toExcept]
  cases c.problems with
  | nil => simp
  | cons p ps => simp

/-- What is read one for one is read from something. -/
theorem exists_of_forall₂ {R : α → β → Prop} {as : List α} {bs : List β}
    (h : List.Forall₂ R as bs) {b : β} (hb : b ∈ bs) : ∃ a ∈ as, R a b := by
  induction h with
  | nil => exact absurd hb List.not_mem_nil
  | cons hr _ ih =>
      rcases List.mem_cons.1 hb with rfl | hb
      · exact ⟨_, List.mem_cons_self, hr⟩
      · obtain ⟨a, ha, hr⟩ := ih hb
        exact ⟨a, List.mem_cons_of_mem _ ha, hr⟩

/-- What holds of each of some things holds of each that is read from them. -/
theorem forall_iff_of_forall₂ {R : α → β → Prop} {P : α → Prop} {Q : β → Prop} {as : List α}
    {bs : List β} (hpq : ∀ a b, R a b → (P a ↔ Q b)) (h : List.Forall₂ R as bs) :
    (∀ a ∈ as, P a) ↔ ∀ b ∈ bs, Q b := by
  induction h with
  | nil => exact iff_of_true (List.forall_mem_nil P) (List.forall_mem_nil Q)
  | cons hr _ ih => rw [List.forall_mem_cons, List.forall_mem_cons, hpq _ _ hr, ih]

/-- A list is read without problems if each item is. -/
theorem forEach_eq_pure_iff {f : α → Checked β} {as : List α} {bs : List β} :
    forEach f as = pure bs ↔ List.Forall₂ (fun a b ↦ f a = pure b) as bs := by
  induction as generalizing bs with
  | nil =>
      rw [forEach, pure_inj, List.forall₂_nil_left_iff]
      exact eq_comm
  | cons a as ih =>
      simp only [forEach, bind_eq_pure_iff, ih, pure_inj, List.forall₂_cons_left_iff]
      constructor
      · rintro ⟨b, hb, bs, hbs, rfl⟩
        exact ⟨b, bs, hb, hbs, rfl⟩
      · rintro ⟨b, bs, hb, hbs, rfl⟩
        exact ⟨b, hb, bs, hbs, rfl⟩

/-- Where an item without problems gives something, items without problems give one thing each. -/
theorem filterMap_forEach_eq_pure_iff {f : α → Checked (Option β)} {as : List α} {bs : List β}
    (hf : ∀ a ∈ as, f a ≠ pure none) :
    (do let found ← forEach f as; return found.filterMap id) = pure bs ↔
      List.Forall₂ (fun a b ↦ f a = pure (some b)) as bs := by
  simp only [bind_eq_pure_iff, forEach_eq_pure_iff, pure_inj]
  constructor
  · rintro ⟨found, h, rfl⟩
    induction h with
    | nil => exact .nil
    | @cons a o as found ho _ ih =>
        obtain ⟨ha, hf⟩ := List.forall_mem_cons.1 hf
        cases o with
        | none => exact absurd ho ha
        | some b => exact .cons ho (ih hf)
  · intro h
    refine ⟨bs.map some, List.forall₂_map_right_iff.2 h, ?_⟩
    rw [List.filterMap_map]
    exact List.filterMap_some

end LabPlan.Checked
