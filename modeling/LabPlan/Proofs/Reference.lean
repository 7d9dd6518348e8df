import LabPlan.Description.WellFormed

/-! # Reading references

A text is read as a reference exactly if it is the text of one whose parts can be written, and as
it stands if it has no dollar sign in front. -/

namespace LabPlan.Reference

/-- A part of a reference is not empty and has neither dots nor blanks. -/
theorem isPart_iff {cs : List Char} :
    isPart cs = true ↔ cs ≠ [] ∧ ∀ c ∈ cs, c ≠ '.' ∧ Text.isBlank c = false := by
  simp [isPart, List.isEmpty_eq_false_iff]

theorem all_ne_dot {cs : List Char} (h : isPart cs = true) : ∀ c ∈ cs, (c != '.') = true :=
  fun c hc ↦ bne_iff_ne.2 ((isPart_iff.1 h).2 c hc).1

/-- What is after the dollar sign of a reference is read as its parts. -/
theorem ofParts?_of_spelling {r : Reference} (hr : r.IsWritable) {cs : List Char}
    (h : r.spelling = '$' :: cs) : ofParts? cs = some r := by
  obtain ⟨name, field⟩ := r
  obtain ⟨hname, hfield⟩ := hr
  have htake (rest : List Char) : (name.toList ++ rest).takeWhile (· != '.') =
      name.toList ++ rest.takeWhile (· != '.') := List.takeWhile_append_of_pos (all_ne_dot hname)
  have hdrop (rest : List Char) : (name.toList ++ rest).dropWhile (· != '.') =
      rest.dropWhile (· != '.') := List.dropWhile_append_of_pos (all_ne_dot hname)
  have hname : isPart name.toList = true := hname
  cases field with
  | none =>
      obtain rfl : name.toList ++ [] = cs := (List.cons.inj h).2
      rw [ofParts?, htake, hdrop]
      simp [hname]
  | some f =>
      obtain rfl : name.toList ++ '.' :: f.toList = cs := (List.cons.inj h).2
      rw [ofParts?, htake, hdrop]
      simp [hname, hfield f rfl]

/-- What is read as the parts of a reference is what it is spelled with. -/
theorem spelling_of_ofParts? {cs : List Char} {r : Reference} (h : ofParts? cs = some r) :
    r.IsWritable ∧ r.spelling = '$' :: cs := by
  have hcs : cs.takeWhile (· != '.') ++ cs.dropWhile (· != '.') = cs :=
    List.takeWhile_append_dropWhile
  rw [ofParts?] at h
  cases hd : cs.dropWhile (· != '.') with
  | nil =>
      rw [hd, List.append_nil] at hcs
      simp only [hd, Option.ite_none_right_eq_some, Option.some.injEq] at h
      obtain ⟨hname, rfl⟩ := h
      refine ⟨⟨by simpa using hname, by simp⟩, ?_⟩
      simp [spelling, hcs]
  | cons c field =>
      obtain rfl : c = '.' := by
        have hc := List.head_dropWhile_not (· != '.') (l := cs) (by simp [hd])
        simpa [hd] using hc
      simp only [hd, Option.ite_none_right_eq_some, Bool.and_eq_true, Option.some.injEq] at h
      obtain ⟨⟨hname, hfield⟩, rfl⟩ := h
      rw [hd] at hcs
      refine ⟨⟨by simpa using hname, by simpa using hfield⟩, ?_⟩
      simpa [spelling] using hcs

/-- A text is read as a reference exactly if it is the text of one that can be written. -/
theorem read_eq_reference_iff {s : String} {r : Reference} :
    read s = .reference r ↔ r.IsWritable ∧ r.text = s := by
  have htext : r.text = s ↔ r.spelling = s.toList := by
    rw [text, ← String.toList_inj, String.toList_ofList]
  rw [htext, read]
  split
  · rename_i cs hs
    rw [hs]
    cases h : ofParts? cs with
    | none =>
        refine iff_of_false (by simp) ?_
        rintro ⟨hr, hcs⟩
        rw [ofParts?_of_spelling hr hcs] at h
        cases h
    | some q =>
        simp only [Reading.reference.injEq]
        constructor
        · rintro rfl
          exact spelling_of_ofParts? h
        · rintro ⟨hr, hcs⟩
          rw [ofParts?_of_spelling hr hcs] at h
          exact (Option.some.inj h).symm
  · rename_i hs
    refine iff_of_false (by simp) ?_
    rintro ⟨-, h⟩
    exact hs _ h.symm

/-- A text is left as it stands if it has no dollar sign in front. -/
theorem read_eq_literal_iff {s : String} : read s = .literal ↔ isSought s = false := by
  rw [read, isSought]
  split
  · rename_i cs hs
    rw [hs]
    cases ofParts? cs with
    | none => simp
    | some r => simp
  · rename_i hs
    cases h : s.toList with
    | nil => simp
    | cons c cs =>
        have hc : c ≠ '$' := by
          rintro rfl
          exact hs cs h
        simp [hc]

end LabPlan.Reference
