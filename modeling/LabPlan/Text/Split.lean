/-! # Splitting at a character -/

namespace LabPlan.Text

/-- The pieces between the occurrences of a character; there is always at least one. -/
def split (sep : Char) : List Char → List (List Char)
  | [] => [[]]
  | c :: cs =>
    if c == sep then [] :: split sep cs
    else
      match split sep cs with
      | [] => [[c]]
      | s :: ss => (c :: s) :: ss

@[simp] theorem split_nil (sep : Char) : split sep [] = [[]] := rfl

theorem split_ne_nil (sep : Char) (cs : List Char) : split sep cs ≠ [] := by
  cases cs with
  | nil => simp
  | cons c cs =>
    rw [split]
    split
    · simp
    · cases split sep cs <;> simp

@[simp] theorem split_sep (sep : Char) (cs : List Char) :
    split sep (sep :: cs) = [] :: split sep cs := by simp [split]

/-- A character that does not separate belongs to the first piece. -/
theorem split_of_ne {sep c : Char} {cs s : List Char} {ss : List (List Char)} (hc : c ≠ sep)
    (h : split sep cs = s :: ss) : split sep (c :: cs) = (c :: s) :: ss := by
  rw [split, if_neg (by simpa using hc), h]

end LabPlan.Text
