import LabPlan.Search.Finding
import Mathlib.Data.List.Basic

/-! # Matching patterns of columns

Matching keeps a list that says for every beginning of the text whether the pieces so far match it.
One more piece turns such a list into the next, and the last entry is about the whole text.  What
is written for a search value is read back as the pieces of its tokens, whatever characters its
literals hold, so a value matches what its tokens stand for. -/

namespace LabPlan.Search

/-! ## Cutting a text -/

@[simp] theorem matches_nil_iff {text : List Char} : Matches [] text ↔ text = [] := by
  constructor
  · intro h
    cases h
    rfl
  · rintro rfl
    exact .nil

/-- What matches two patterns in a row is cut into a part for each. -/
theorem matches_append_iff {ps qs : List Piece} {text : List Char} :
    Matches (ps ++ qs) text ↔ ∃ front rest, text = front ++ rest ∧ Matches ps front ∧
      Matches qs rest := by
  constructor
  · intro h
    induction ps generalizing text with
    | nil => exact ⟨[], text, rfl, .nil, h⟩
    | cons p ps ih =>
        cases h with
        | char h =>
            obtain ⟨front, rest, rfl, hf, hr⟩ := ih h
            exact ⟨_ :: front, rest, rfl, .char hf, hr⟩
        | oneChar h =>
            obtain ⟨front, rest, rfl, hf, hr⟩ := ih h
            exact ⟨_ :: front, rest, rfl, .oneChar hf, hr⟩
        | @anyChars run _ _ h =>
            obtain ⟨front, rest, rfl, hf, hr⟩ := ih h
            exact ⟨run ++ front, rest, by simp, .anyChars hf, hr⟩
  · rintro ⟨front, rest, rfl, hf, hr⟩
    induction hf with
    | nil => exact hr
    | char _ ih => exact .char ih
    | oneChar _ ih => exact .oneChar ih
    | anyChars _ ih =>
        rw [List.append_assoc]
        exact .anyChars ih

theorem matches_char_iff {c : Char} {text : List Char} : Matches [.char c] text ↔ text = [c] := by
  constructor
  · intro h
    cases h with
    | char h => rw [matches_nil_iff.1 h]
  · rintro rfl
    exact .char .nil

theorem matches_oneChar_iff {text : List Char} : Matches [.oneChar] text ↔ text.length = 1 := by
  rw [List.length_eq_one_iff]
  constructor
  · intro h
    cases h with
    | @oneChar c _ _ h => exact ⟨c, by rw [matches_nil_iff.1 h]⟩
  · rintro ⟨c, rfl⟩
    exact .oneChar .nil

theorem matches_anyChars (text : List Char) : Matches [.anyChars] text := by
  have h : Matches [.anyChars] (text ++ []) := .anyChars .nil
  rwa [List.append_nil] at h

/-! ## Matching step by step -/

namespace Like

variable {text : List Char} {ps qs : List Piece} {ms : List Bool}

/-- The list says of every beginning of the text whether the pieces match it. -/
structure Marks (text : List Char) (ps : List Piece) (ms : List Bool) : Prop where
  length : ms.length = text.length + 1
  mark : ∀ j ≤ text.length, ms[j]? = some true ↔ Matches ps (text.take j)

/-- Without any piece only the empty beginning is matched. -/
theorem marks_initial (text : List Char) : Marks text [] (initial text) where
  length := by simp [initial]
  mark := by
    intro j hj
    rw [matches_nil_iff, List.take_eq_nil_iff, initial]
    cases j with
    | zero => simp
    | succ j =>
        have hne : text ≠ [] := List.ne_nil_of_length_pos (Nat.lt_of_lt_of_le j.succ_pos hj)
        simp [hne, List.getElem?_replicate]

theorem length_fill {b : Bool} : (fill b ms).length = ms.length := by
  induction ms generalizing b with
  | nil => rfl
  | cons m ms ih => rw [fill, List.length_cons, ih, List.length_cons]

/-- From the first mark on, all beginnings are marked. -/
theorem getElem?_fill {b : Bool} {j : Nat} : (fill b ms)[j]? = some true ↔
    j < ms.length ∧ (b = true ∨ ∃ i ≤ j, ms[i]? = some true) := by
  induction ms generalizing b j with
  | nil => simp [fill]
  | cons m ms ih =>
      cases j with
      | zero => cases b <;> cases m <;> simp [fill]
      | succ j =>
          rw [fill, List.getElem?_cons_succ, ih, List.length_cons, Nat.succ_lt_succ_iff,
            Bool.or_eq_true, or_assoc]
          refine and_congr_right fun _ ↦ or_congr_right ⟨?_, ?_⟩
          · rintro (rfl | ⟨i, hi, hm⟩)
            · exact ⟨0, Nat.zero_le _, rfl⟩
            · exact ⟨i + 1, Nat.succ_le_succ hi, hm⟩
          · rintro ⟨i, hi, hm⟩
            cases i with
            | zero => exact .inl (Option.some.inj hm)
            | succ i => exact .inr ⟨i, Nat.le_of_succ_le_succ hi, hm⟩

/-- The last piece matches what the pieces before it leave of a beginning. -/
theorem matches_concat_iff {p : Piece} {j : Nat} : Matches (ps ++ [p]) (text.take j) ↔
    ∃ i ≤ j, Matches ps (text.take i) ∧ Matches [p] ((text.take j).drop i) := by
  rw [matches_append_iff]
  constructor
  · rintro ⟨front, rest, he, hf, hr⟩
    have hlen : front.length ≤ j := by
      have := congrArg List.length he
      simp only [List.length_take, List.length_append] at this
      omega
    have hfront : text.take front.length = front := by
      have := congrArg (List.take front.length) he
      rwa [List.take_left, List.take_take, Nat.min_eq_left hlen] at this
    refine ⟨front.length, hlen, by rwa [hfront], ?_⟩
    rwa [he, List.drop_left]
  · rintro ⟨i, hi, hf, hr⟩
    refine ⟨_, _, ?_, hf, hr⟩
    have := List.take_append_drop i (text.take j)
    rw [List.take_take, Nat.min_eq_left hi] at this
    exact this.symm

theorem Marks.anyChars (h : Marks text ps ms) : Marks text (ps ++ [.anyChars]) (fill false ms) where
  length := by rw [length_fill, h.length]
  mark := by
    intro j hj
    rw [getElem?_fill, matches_concat_iff, h.length]
    simp only [Nat.lt_succ_of_le hj, true_and, Bool.false_eq_true, false_or, matches_anyChars,
      and_true]
    exact exists_congr fun i ↦ and_congr_right fun hi ↦ h.mark i (Nat.le_trans hi hj)

theorem Marks.oneChar (h : Marks text ps ms) :
    Marks text (ps ++ [.oneChar]) (false :: ms.take text.length) where
  length := by simp [h.length]
  mark := by
    intro j hj
    rw [matches_concat_iff]
    simp only [matches_oneChar_iff, List.length_drop, List.length_take, Nat.min_eq_left hj]
    cases j with
    | zero => simp
    | succ j =>
        rw [List.getElem?_cons_succ, List.getElem?_take_of_lt hj, h.mark j (Nat.le_of_succ_le hj)]
        constructor
        · intro hm
          exact ⟨j, Nat.le_succ j, hm, by omega⟩
        · rintro ⟨i, hi, hm, hl⟩
          obtain rfl : i = j := by omega
          exact hm

theorem Marks.char (h : Marks text ps ms) (c : Char) : Marks text (ps ++ [.char c])
    (false :: List.zipWith (fun m d ↦ m && d == c) ms text) where
  length := by simp [h.length]
  mark := by
    intro j hj
    rw [matches_concat_iff]
    simp only [matches_char_iff]
    cases j with
    | zero => simp
    | succ j =>
        have hlast : (text.take (j + 1)).drop j = [text[j]] := by
          rw [List.drop_take, List.drop_eq_getElem_cons hj, Nat.add_sub_cancel_left]
          rfl
        have hstep : (List.zipWith (fun m d ↦ m && d == c) ms text)[j]? = some true ↔
            ms[j]? = some true ∧ text[j] = c := by
          rw [List.getElem?_zipWith, List.getElem?_eq_getElem hj]
          cases ms[j]? <;> simp
        rw [List.getElem?_cons_succ, hstep, h.mark j (Nat.le_of_succ_le hj)]
        constructor
        · rintro ⟨hm, rfl⟩
          exact ⟨j, Nat.le_succ j, hm, hlast⟩
        · rintro ⟨i, hi, hm, hc⟩
          have hlen := congrArg List.length hc
          simp only [List.length_drop, List.length_take, Nat.min_eq_left hj,
            List.length_singleton] at hlen
          obtain rfl : i = j := by omega
          rw [hlast] at hc
          exact ⟨hm, List.head_eq_of_cons_eq hc⟩

/-- One more piece keeps the marks right. -/
theorem Marks.step (h : Marks text ps ms) (p : Piece) :
    Marks text (ps ++ [p]) (Like.step text ms p) := by
  cases p with
  | char c => exact h.char c
  | anyChars => exact h.anyChars
  | oneChar => exact h.oneChar

/-- Marks stay right over a whole pattern. -/
theorem Marks.foldl (h : Marks text ps ms) (qs : List Piece) :
    Marks text (ps ++ qs) (qs.foldl (Like.step text) ms) := by
  induction qs generalizing ps ms with
  | nil => simpa using h
  | cons q qs ih => simpa using ih (h.step q)

/-- Matching by marks decides whether the pieces match the text. -/
theorem matchesPieces_iff : matchesPieces ps text = true ↔ Matches ps text := by
  have h := (marks_initial text).foldl ps
  rw [List.nil_append] at h
  have hlast := h.mark text.length (Nat.le_refl _)
  rw [List.take_length] at hlast
  rw [matchesPieces, List.getLastD_eq_getLast?, List.getLast?_eq_getElem?, h.length,
    Nat.add_sub_cancel, ← hlast]
  cases (ps.foldl (Like.step text) (initial text))[text.length]? <;> simp

/-! ## Written patterns -/

variable {escape : Char} {cs : List Char}

/-- A pattern can be read, as its pieces. -/
theorem reads_pieces (escape : Char) (cs : List Char) : Reads escape cs (pieces escape cs) := by
  fun_induction pieces escape cs with
  | case1 => exact .nil
  | case2 => exact .trailing
  | case3 c cs ih => exact .escaped ih
  | case4 cs he ih => exact .anyChars (Ne.symm he) ih
  | case5 cs he _ ih => exact .oneChar (Ne.symm he) ih
  | case6 c cs he ha ho ih => exact .char he ha ho ih

/-- There is no other way to read it. -/
theorem Reads.eq_pieces (h : Reads escape cs ps) : ps = pieces escape cs := by
  induction h with
  | nil => rfl
  | escaped _ ih =>
      rw [pieces.eq_def, ih]
      simp
  | trailing =>
      rw [pieces.eq_def]
      simp
  | anyChars he _ ih =>
      rw [pieces.eq_def, ih]
      simp [Ne.symm he]
  | oneChar he _ ih =>
      rw [pieces.eq_def, ih]
      simp [Ne.symm he]
  | char he ha ho _ ih =>
      rw [pieces.eq_def, ih]
      simp [he, ha, ho]

/-- A pattern is read in exactly one way, whatever its escape character is, and it matches a value
exactly if the value is cut into parts for the pieces that are read. -/
theorem isMatch_iff_matches (pattern : String) (escape : Char) (value : String) :
    ∃ ps, (∀ qs, Reads escape pattern.toList qs ↔ qs = ps) ∧
      (isMatch pattern escape value = true ↔ Matches ps value.toList) := by
  refine ⟨pieces escape pattern.toList, fun qs ↦ ⟨Reads.eq_pieces, ?_⟩, matchesPieces_iff⟩
  rintro rfl
  exact reads_pieces escape pattern.toList

/-- The wildcard itself as the escape character, and as the last one. -/
example : isMatch "%_%" '%' "_%" = true ∧ isMatch "%_%" '%' "ab" = false := by decide

end Like

/-! ## Values -/

/-- The pieces of a token match the texts that it stands for. -/
theorem matches_pieces_iff {t : Token} {part : List Char} :
    Matches t.pieces part ↔ t.StandsFor part := by
  cases t with
  | literal s =>
      rw [Token.pieces, Token.StandsFor]
      induction s.toList generalizing part with
      | nil => exact matches_nil_iff
      | cons c cs ih =>
          constructor
          · intro h
            cases h with
            | char h => rw [ih.1 h]
          · rintro rfl
            exact .char (ih.2 rfl)
  | anyChars => exact iff_of_true (matches_anyChars part) trivial
  | oneChar => exact matches_oneChar_iff

/-- A text matches the pieces of a value exactly if it is cut into parts that its tokens stand
for. -/
theorem matches_flatMap_pieces_iff {ts : List Token} {text : List Char} :
    Matches (ts.flatMap Token.pieces) text ↔ Token.Spell ts text := by
  induction ts generalizing text with
  | nil =>
      rw [List.flatMap_nil, matches_nil_iff]
      constructor
      · rintro rfl
        exact .nil
      · intro h
        cases h
        rfl
  | cons t ts ih =>
      rw [List.flatMap_cons, matches_append_iff]
      constructor
      · rintro ⟨part, rest, rfl, ht, hts⟩
        exact .cons (matches_pieces_iff.1 ht) (ih.1 hts)
      · intro h
        cases h with
        | cons h hs => exact ⟨_, _, rfl, matches_pieces_iff.2 h, ih.2 hs⟩

/-- With any run allowed on both sides, a part of the text is matched. -/
theorem matches_anywhere_iff {ps : List Piece} {text : List Char} :
    Matches (.anyChars :: (ps ++ [.anyChars])) text ↔ ∃ part, part <:+: text ∧ Matches ps part := by
  constructor
  · intro h
    cases h with
    | @anyChars run _ _ h =>
        obtain ⟨part, rest, rfl, hp, -⟩ := matches_append_iff.1 h
        exact ⟨part, ⟨run, rest, by simp⟩, hp⟩
  · rintro ⟨part, ⟨run, rest, rfl⟩, hp⟩
    rw [List.append_assoc]
    exact .anyChars (matches_append_iff.2 ⟨part, rest, rfl, hp, matches_anyChars rest⟩)

/-! ## Patterns of values -/

/-- A character is read back from a pattern as itself. -/
theorem pieces_likeChar_append (c : Char) (cs : List Char) :
    Like.pieces likeEscape (likeChar c ++ cs) = .char c :: Like.pieces likeEscape cs := by
  rw [likeChar]
  split
  · rw [List.cons_append, Like.pieces.eq_def]
    simp
  · rename_i h
    simp only [Bool.or_eq_true, beq_iff_eq, not_or] at h
    obtain ⟨⟨he, ha⟩, ho⟩ := h
    rw [List.singleton_append, Like.pieces.eq_def]
    simp [he, ha, ho]

/-- A token is read back from a pattern as its own pieces. -/
theorem pieces_likeText_append (t : Token) (cs : List Char) :
    Like.pieces likeEscape (t.likeText ++ cs) = t.pieces ++ Like.pieces likeEscape cs := by
  cases t with
  | literal s =>
      rw [Token.likeText, Token.pieces]
      induction s.toList with
      | nil => rfl
      | cons d ds ih => rw [List.flatMap_cons, List.append_assoc, pieces_likeChar_append, ih]; rfl
  | anyChars =>
      rw [Token.likeText, List.singleton_append, Like.pieces.eq_def]
      rfl
  | oneChar =>
      rw [Token.likeText, List.singleton_append, Like.pieces.eq_def]
      rfl

theorem pieces_flatMap_likeText_append (ts : List Token) (cs : List Char) :
    Like.pieces likeEscape (ts.flatMap Token.likeText ++ cs) =
      ts.flatMap Token.pieces ++ Like.pieces likeEscape cs := by
  induction ts with
  | nil => rfl
  | cons t ts ih =>
      rw [List.flatMap_cons, List.append_assoc, pieces_likeText_append, ih, List.flatMap_cons,
        List.append_assoc]

/-- The pattern of a value matches the texts that the value matches. -/
theorem isMatch_likePattern_iff {value : List Token} {text : String} :
    Like.isMatch (likePattern value false) likeEscape text = true ↔
      Token.Spell value text.toList := by
  have hpieces : Like.pieces likeEscape (likePattern value false).toList =
      value.flatMap Token.pieces := by
    simpa [likePattern, Like.pieces] using pieces_flatMap_likeText_append value []
  rw [Like.isMatch, Like.matchesPieces_iff, hpieces, matches_flatMap_pieces_iff]

/-- The pattern of a value that may stand anywhere matches the texts with a part that the value
matches. -/
theorem isMatch_likePattern_anywhere_iff {value : List Token} {text : String} :
    Like.isMatch (likePattern value true) likeEscape text = true ↔
      ∃ part, part <:+: text.toList ∧ Token.Spell value part := by
  have hany (cs : List Char) :
      Like.pieces likeEscape ('%' :: cs) = .anyChars :: Like.pieces likeEscape cs :=
    pieces_likeText_append .anyChars cs
  have hpieces : Like.pieces likeEscape (likePattern value true).toList =
      .anyChars :: (value.flatMap Token.pieces ++ [.anyChars]) := by
    have hnil : Like.pieces likeEscape [] = [] := rfl
    simp [likePattern, hany, pieces_flatMap_likeText_append, hnil]
  rw [Like.isMatch, Like.matchesPieces_iff, hpieces, matches_anywhere_iff]
  simp only [matches_flatMap_pieces_iff]

end LabPlan.Search
