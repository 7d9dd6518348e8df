import LabPlan.Search.Grammar
import LabPlan.Search.Query
import Mathlib.Data.List.TakeWhile

/-! # Reading words

Segments, words and bare text are read exactly as their rules derive them.  The rules leave open
where unquoted text is cut into segments, so a derivation is compared with what is read from the
derived text *and whatever follows it*: the derived part only puts its pieces in front.  No
condition on what follows is needed until the reading has to stop. -/

namespace LabPlan.Search

namespace Parsed

/-- Read on where a value ended, and put the pieces together. -/
def andThen (r : Parsed (List Piece)) (f : List Char → Parsed (List Piece)) :
    Parsed (List Piece) :=
  match r with
  | .ok (ps, rest) => (f rest).map (ps ++ ·)
  | .error t => .error t

variable {r : Parsed (List Piece)} {f : List Char → Parsed (List Piece)}

@[simp] theorem andThen_ok (ps : List Piece) (rest : List Char) :
    andThen (.ok (ps, rest)) f = (f rest).map (ps ++ ·) := rfl

@[simp] theorem andThen_error (t : Trace) : andThen (.error t) f = .error t := rfl

@[simp] theorem map_id : r.map (fun ps ↦ ps) = r := by
  cases r <;> rfl

theorem map_append_map (ps qs : List Piece) :
    (r.map (qs ++ ·)).map (ps ++ ·) = r.map (ps ++ qs ++ ·) := by
  cases r with
  | error => rfl
  | ok p => simp only [map, List.append_assoc]

theorem map_append_andThen (ps : List Piece) :
    (r.map (ps ++ ·)).andThen f = (r.andThen f).map (ps ++ ·) := by
  cases r with
  | error => rfl
  | ok p => rw [map_ok, andThen_ok, andThen_ok, map_append_map]

end Parsed

/-! ## Characters -/

theorem isSpace_iff {c : Char} : isSpace c = true ↔ IsSpace c := by
  simp [isSpace, IsSpace, or_assoc]

theorem isFieldChar_iff {c : Char} : isFieldChar c = true ↔ IsFieldChar c := by
  change ((decide ('A'.val ≤ c.val ∧ c.val ≤ 'Z'.val) ||
    (decide ('a'.val ≤ c.val) && decide (c.val ≤ 'z'.val))) || c == '_') = true ↔ _
  simp only [Bool.or_eq_true, Bool.and_eq_true, decide_eq_true_eq, beq_iff_eq, or_assoc]
  rfl

theorem isFieldChar_of_all {name : List Char} (h : name.all isFieldChar = true) :
    ∀ c ∈ name, IsFieldChar c := fun c hc ↦ isFieldChar_iff.1 (List.all_eq_true.1 h c hc)

theorem isUnquoted_iff {c : Char} : isUnquoted c = true ↔ IsPlain c := by
  simp [isUnquoted, IsPlain]

theorem wildcard?_eq_some_iff {c : Char} {p : Piece} : wildcard? c = some p ↔ Wildcard c p := by
  rw [wildcard?]
  constructor
  · intro h
    split at h
    · rename_i hc
      obtain rfl := eq_of_beq hc
      obtain rfl := Option.some.inj h
      exact .anyChars
    · split at h
      · rename_i hc
        obtain rfl := eq_of_beq hc
        obtain rfl := Option.some.inj h
        exact .oneChar
      · cases h
  · rintro (_ | _)
    · rfl
    · rfl

theorem wildcard?_eq_none_iff {c : Char} : wildcard? c = none ↔ c ≠ '*' ∧ c ≠ '?' := by
  rw [wildcard?]
  by_cases ha : c = '*'
  · simp [ha]
  · by_cases ho : c = '?'
    · simp [ho]
    · simp [ha, ho]

/-- What is read of an escape is what it stands for. -/
theorem escape_iff {c d : Char} : Escape c d ↔ unescape c = d := by
  rw [unescape]
  constructor
  · rintro (_ | hc)
    · rfl
    · exact if_neg (by simpa using hc)
  · rintro rfl
    split
    · rename_i hc
      rw [eq_of_beq hc]
      exact .lineFeed
    · rename_i hc
      exact .self (by simpa using hc)

theorem AreSpaces.isSpace {sp : List Char} (hs : AreSpaces sp) : ∀ c ∈ sp, isSpace c = true :=
  fun c hc ↦ isSpace_iff.2 (hs c hc)

theorem dropWhile_isSpace_eq_nil_iff {sp : List Char} :
    sp.dropWhile isSpace = [] ↔ AreSpaces sp := by
  simp only [List.dropWhile_eq_nil_iff, isSpace_iff, AreSpaces]

theorem areSpaces_takeWhile (cs : List Char) : AreSpaces (cs.takeWhile isSpace) :=
  fun _ h ↦ isSpace_iff.1 (List.mem_takeWhile_imp h)

/-! ## Where parts begin -/

/-- A segment begins with this character. -/
def opensSegment (c : Char) : Bool :=
  c == '"' || c == '\x27' || (wildcard? c).isSome || c == '\\' || isUnquoted c

/-- Whether there is a segment shows at its first character. -/
theorem isSome_segment?_cons (c : Char) (cs : List Char) :
    (segment? (c :: cs)).isSome = opensSegment c := by
  rw [segment?, opensSegment]
  by_cases hq : c = '"' ∨ c = '\x27'
  · rw [if_pos hq]
    rcases hq with rfl | rfl <;> rfl
  · rw [if_neg hq]
    obtain ⟨hd, hs⟩ := not_or.1 hq
    cases wildcard? c with
    | some p => simp
    | none =>
        by_cases hu : c = '\\' ∨ isUnquoted c = true
        · rw [if_pos hu]
          rcases hu with rfl | hu
          · rfl
          · simp [hu]
        · rw [if_neg hu]
          simpa [hd, hs] using hu

theorem segment?_eq_none_iff {c : Char} {cs : List Char} :
    segment? (c :: cs) = none ↔ opensSegment c = false := by
  rw [← isSome_segment?_cons c cs, Option.isSome_eq_false_iff, Option.isNone_iff_eq_none]

/-- Space is no part of a segment. -/
theorem opensSegment_of_isSpace {c : Char} (h : isSpace c = true) : opensSegment c = false := by
  simp only [isSpace, Bool.or_eq_true, beq_iff_eq] at h
  rcases h with ((rfl | rfl) | rfl) | rfl <;> rfl

theorem isSpace_eq_false {c : Char} (h : opensSegment c = true) : isSpace c = false := by
  by_contra hs
  rw [opensSegment_of_isSpace (by simpa using hs)] at h
  cases h

/-- The text begins with a segment. -/
def Opens (cs : List Char) : Prop := ∃ c ds, cs = c :: ds ∧ opensSegment c = true

theorem Opens.append {cs : List Char} (h : Opens cs) (ds : List Char) : Opens (cs ++ ds) := by
  obtain ⟨c, es, rfl, hc⟩ := h
  exact ⟨c, es ++ ds, rfl, hc⟩

theorem Opens.isSome_segment? {cs : List Char} (h : Opens cs) : (segment? cs).isSome = true := by
  obtain ⟨c, ds, rfl, hc⟩ := h
  rw [isSome_segment?_cons, hc]

/-- What is derived begins with a segment: text, segments, words and bare text alike. -/
theorem Unquoted.opens {c : Char} {cs : List Char} {ps : List Piece}
    (h : Unquoted (c :: cs) ps) : opensSegment c = true := by
  cases h with
  | plain hc => simp [opensSegment, isUnquoted_iff.2 hc]
  | escape => rfl

theorem Segment.opens {cs : List Char} {ps : List Piece} (h : Segment cs ps) : Opens cs := by
  cases h with
  | quoted hq _ =>
      refine ⟨_, _, rfl, ?_⟩
      rcases hq with rfl | rfl <;> rfl
  | wildcard hw => exact ⟨_, _, rfl, by simp [opensSegment, wildcard?_eq_some_iff.2 hw]⟩
  | unquoted hne h =>
      obtain ⟨c, ds, rfl⟩ := List.exists_cons_of_ne_nil hne
      exact ⟨c, ds, rfl, h.opens⟩

theorem Word.opens {cs : List Char} {ps : List Piece} (h : Word cs ps) : Opens cs := by
  cases h with
  | one h => exact h.opens
  | more h _ => exact h.opens.append _

theorem Bare.opens {cs : List Char} {ps : List Piece} (h : Bare cs ps) : Opens cs := by
  cases h with
  | one h => exact h.opens
  | more h _ _ _ => exact (h.opens.append _).append _

/-! ## What is derived is read -/

theorem segments_of_none {cs : List Char} (h : segment? cs = none) :
    segments cs = .ok ([], cs) := by
  rw [segments]
  split
  · rfl
  · rename_i he
    cases h.symm.trans he
  · rename_i he
    cases h.symm.trans he

theorem segments_of_some {cs : List Char} {r : Parsed (List Piece)} (h : segment? cs = some r) :
    segments cs = r.andThen segments := by
  rw [segments]
  split
  · rename_i he
    cases h.symm.trans he
  · rename_i he
    rw [Option.some.inj (h.symm.trans he), Parsed.andThen_error]
  · rename_i he
    rw [Option.some.inj (h.symm.trans he), Parsed.andThen_ok]

/-- Derived text is taken whole, and reading goes on after it. -/
theorem unquoted_append {cs : List Char} {ps : List Piece} (h : Unquoted cs ps)
    (rest : List Char) : unquoted (cs ++ rest) = (unquoted rest).map (ps ++ ·) := by
  induction h with
  | nil => simp
  | @plain c cs ps hc _ ih =>
      have hb : c ≠ '\\' := by
        rintro rfl
        exact hc.2 (by decide)
      rw [List.cons_append, unquoted.eq_def]
      simp only [if_neg hb, isUnquoted_iff.2 hc, if_true, ih]
      exact Parsed.map_append_map [.char c] ps
  | @escape c d cs ps he _ ih =>
      rw [List.cons_append, List.cons_append, unquoted.eq_def]
      simp only [if_true, escape_iff.1 he, ih]
      exact Parsed.map_append_map [.char d] ps

/-- Unquoted text is a segment of its own. -/
theorem segment?_of_unquoted {c : Char} (h : c = '\\' ∨ isUnquoted c = true) (cs : List Char) :
    segment? (c :: cs) = some (unquoted (c :: cs)) := by
  rcases h with rfl | h
  · rfl
  · have hc := h
    simp only [isUnquoted, Bool.and_eq_true, Bool.not_eq_true', List.contains_cons,
      Bool.or_eq_false_iff, beq_eq_false_iff_ne] at hc
    obtain ⟨-, -, -, hs, hd, -, ha, ho, -⟩ := hc
    have hw : wildcard? c = none := by simp [wildcard?, ha, ho]
    rw [segment?, if_neg (by simp [hs, hd]), hw]
    simp [h]

/-- Segments are read through unquoted text first. -/
theorem segments_eq_unquoted (cs : List Char) : segments cs = (unquoted cs).andThen segments := by
  cases cs with
  | nil =>
      rw [unquoted.eq_def]
      simp
  | cons c cs =>
      by_cases hu : c = '\\' ∨ isUnquoted c = true
      · exact segments_of_some (segment?_of_unquoted hu cs)
      · obtain ⟨hb, hn⟩ := not_or.1 hu
        rw [unquoted.eq_def]
        simp [hb, hn]

/-- Derived content of a quoted string is taken up to the closing quote. -/
theorem quoted_append {q : Char} (hq : q = '"' ∨ q = '\x27') {cs : List Char} {ps : List Piece}
    (h : Quoted q cs ps) (rest : List Char) : quoted q (cs ++ q :: rest) = .ok (ps, rest) := by
  have hb : q ≠ '\\' := by rcases hq with rfl | rfl <;> decide
  induction h with
  | nil =>
      rw [List.nil_append, quoted.eq_def]
      simp [hb]
  | @plain c cs ps hc _ ih =>
      simp only [List.mem_cons, List.not_mem_nil, or_false, not_or] at hc
      obtain ⟨hc, hb, hw⟩ := hc
      rw [List.cons_append, quoted.eq_def]
      simp [hb, hc, wildcard?_eq_none_iff.2 hw, ih]
  | @wildcard c p cs ps hw _ ih =>
      have hcq : c ≠ '\\' ∧ c ≠ q := by
        rcases hq with rfl | rfl <;> cases hw <;> decide
      rw [List.cons_append, quoted.eq_def]
      simp [hcq.1, hcq.2, wildcard?_eq_some_iff.2 hw, ih]
  | @escape c d cs ps he _ ih =>
      rw [List.cons_append, List.cons_append, quoted.eq_def]
      simp [escape_iff.1 he, ih]

/-- A segment only puts its pieces in front of what is read after it. -/
theorem Segment.segments_append {cs : List Char} {ps : List Piece} (h : Segment cs ps)
    (rest : List Char) : segments (cs ++ rest) = (segments rest).map (ps ++ ·) := by
  cases h with
  | @quoted q cs ps hq h =>
      have hs : segment? (q :: (cs ++ q :: rest)) = some (.ok (ps, rest)) := by
        rw [segment?, if_pos hq, quoted_append hq h]
      rw [List.append_assoc, List.cons_append, List.singleton_append, segments_of_some hs,
        Parsed.andThen_ok]
  | @wildcard c p hw =>
      have hs : segment? (c :: rest) = some (.ok ([p], rest)) := by
        rw [segment?, if_neg, wildcard?_eq_some_iff.2 hw]
        rintro (rfl | rfl) <;> cases hw
      rw [List.singleton_append, segments_of_some hs, Parsed.andThen_ok]
  | unquoted _ h =>
      rw [segments_eq_unquoted, unquoted_append h, Parsed.map_append_andThen,
        ← segments_eq_unquoted]

/-- So does a word, segment by segment. -/
theorem Word.segments_append {cs : List Char} {ps : List Piece} (h : Word cs ps)
    (rest : List Char) : segments (cs ++ rest) = (segments rest).map (ps ++ ·) := by
  induction h with
  | one h => exact h.segments_append rest
  | more h _ ih => rw [List.append_assoc, h.segments_append, ih, Parsed.map_append_map]

/-- What is read of bare text once it has begun. -/
def bareRest (cs : List Char) : Parsed (List Piece) := (segments cs).andThen moreWords

/-- Bare text is read where a segment begins. -/
theorem bare?_of_opens {cs : List Char} (h : Opens cs) : bare? cs = some (bareRest cs) := by
  obtain ⟨o, ho⟩ := Option.isSome_iff_exists.1 h.isSome_segment?
  rw [bare?, word?, ho, Option.map_some, bareRest]
  cases segments cs <;> rfl

theorem Word.bareRest_append {cs : List Char} {ps : List Piece} (h : Word cs ps)
    (rest : List Char) : bareRest (cs ++ rest) = (bareRest rest).map (ps ++ ·) := by
  rw [bareRest, h.segments_append, Parsed.map_append_andThen, bareRest]

/-- Space ends where a segment begins. -/
theorem takeWhile_isSpace_append {sp cs : List Char} (hs : AreSpaces sp) (h : Opens cs) :
    (sp ++ cs).takeWhile isSpace = sp := by
  obtain ⟨c, ds, rfl, hc⟩ := h
  rw [List.takeWhile_append_of_pos hs.isSpace, List.takeWhile_cons, isSpace_eq_false hc]
  simp

theorem dropWhile_isSpace_append {sp cs : List Char} (hs : AreSpaces sp) (h : Opens cs) :
    (sp ++ cs).dropWhile isSpace = cs := by
  obtain ⟨c, ds, rfl, hc⟩ := h
  rw [List.dropWhile_append_of_pos hs.isSpace, List.dropWhile_cons, isSpace_eq_false hc]
  simp

/-- Bare text ends where there is no space, or no word after it. -/
theorem moreWords_of_none {cs : List Char}
    (h : cs.takeWhile isSpace = [] ∨ segment? (cs.dropWhile isSpace) = none) :
    moreWords cs = .ok ([], cs) := by
  rw [moreWords]
  rcases h with h | h
  · simp [h]
  · have hword : word? (cs.dropWhile isSpace) = none := by rw [word?, h, Option.map_none]
    split
    · rfl
    · split
      · rfl
      · rename_i he
        cases hword.symm.trans he
      · rename_i he
        cases hword.symm.trans he

/-- With space and a word after it, bare text goes on. -/
theorem moreWords_of_some {cs : List Char} {r : Parsed (List Piece)}
    (hne : cs.takeWhile isSpace ≠ []) (h : word? (cs.dropWhile isSpace) = some r) :
    moreWords cs = (r.andThen moreWords).map ((cs.takeWhile isSpace).map Piece.char ++ ·) := by
  rw [moreWords]
  simp only [List.isEmpty_iff, hne, if_false]
  split
  · rename_i he
    cases h.symm.trans he
  · rename_i he
    rw [Option.some.inj (h.symm.trans he), Parsed.andThen_error, Parsed.map_error]
  · rename_i he
    rw [Option.some.inj (h.symm.trans he), Parsed.andThen_ok, Parsed.map_append_map]

/-- Space before a word belongs to bare text. -/
theorem bareRest_spaces_append {sp cs : List Char} (hs : AreSpaces sp) (hne : sp ≠ [])
    (h : Opens cs) : bareRest (sp ++ cs) = (bareRest cs).map (sp.map Piece.char ++ ·) := by
  have hnone : segment? (sp ++ cs) = none := by
    obtain ⟨c, ds, rfl⟩ := List.exists_cons_of_ne_nil hne
    exact segment?_eq_none_iff.2 (opensSegment_of_isSpace (hs.isSpace c List.mem_cons_self))
  have htake := takeWhile_isSpace_append hs h
  have hword : word? ((sp ++ cs).dropWhile isSpace) = some (segments cs) := by
    rw [dropWhile_isSpace_append hs h]
    obtain ⟨o, ho⟩ := Option.isSome_iff_exists.1 h.isSome_segment?
    rw [word?, ho, Option.map_some]
  rw [bareRest, segments_of_none hnone, Parsed.andThen_ok, moreWords_of_some (by rwa [htake]) hword,
    htake]
  exact Parsed.map_id

/-- Bare text only puts its pieces in front, the space between its words included. -/
theorem Bare.bareRest_append {cs : List Char} {ps : List Piece} (h : Bare cs ps)
    (rest : List Char) : bareRest (cs ++ rest) = (bareRest rest).map (ps ++ ·) := by
  induction h with
  | one h => exact h.bareRest_append rest
  | more h hne hs hb ih =>
      rw [List.append_assoc, List.append_assoc, h.bareRest_append,
        bareRest_spaces_append hs hne (hb.opens.append rest), ih, Parsed.map_append_map,
        Parsed.map_append_map, List.append_assoc]

/-! ## What is read is derived -/

/-- What is taken as unquoted text is derived as such. -/
theorem exists_unquoted {cs rest : List Char} {ps : List Piece} (h : unquoted cs = .ok (ps, rest)) :
    ∃ front, cs = front ++ rest ∧ Unquoted front ps := by
  fun_induction unquoted cs generalizing ps with
  | case1 =>
      cases h
      exact ⟨[], rfl, .nil⟩
  | case2 => cases h
  | case3 d ds ih =>
      obtain ⟨qs, hq, rfl⟩ := Parsed.map_eq_ok h
      obtain ⟨front, rfl, hf⟩ := ih hq
      exact ⟨'\\' :: d :: front, rfl, .escape (escape_iff.2 rfl) hf⟩
  | case4 c cs _ hc ih =>
      obtain ⟨qs, hq, rfl⟩ := Parsed.map_eq_ok h
      obtain ⟨front, rfl, hf⟩ := ih hq
      exact ⟨c :: front, rfl, .plain (isUnquoted_iff.1 hc) hf⟩
  | case5 c cs =>
      cases h
      exact ⟨[], rfl, .nil⟩

/-- What is taken as quoted is derived as the content of a string, with a quote after it. -/
theorem exists_quoted {q : Char} {cs rest : List Char} {ps : List Piece}
    (h : quoted q cs = .ok (ps, rest)) : ∃ front, cs = front ++ q :: rest ∧ Quoted q front ps := by
  fun_induction quoted q cs generalizing ps with
  | case1 => cases h
  | case2 => cases h
  | case3 d ds ih =>
      obtain ⟨qs, hq, rfl⟩ := Parsed.map_eq_ok h
      obtain ⟨front, rfl, hf⟩ := ih hq
      exact ⟨'\\' :: d :: front, rfl, .escape (escape_iff.2 rfl) hf⟩
  | case4 cs =>
      cases h
      exact ⟨[], rfl, .nil⟩
  | case5 c cs hb hc ih =>
      obtain ⟨qs, hq, rfl⟩ := Parsed.map_eq_ok h
      obtain ⟨front, rfl, hf⟩ := ih hq
      refine ⟨c :: front, rfl, ?_⟩
      cases hw : wildcard? c with
      | none =>
          obtain ⟨ha, ho⟩ := wildcard?_eq_none_iff.1 hw
          exact .plain (by simp [hc, hb, ha, ho]) hf
      | some p => exact .wildcard (wildcard?_eq_some_iff.1 hw) hf

theorem exists_segment {cs rest : List Char} {ps : List Piece}
    (h : segment? cs = some (.ok (ps, rest))) : ∃ front, cs = front ++ rest ∧ Segment front ps := by
  cases cs with
  | nil => cases h
  | cons c cs =>
      rw [segment?] at h
      split at h
      · rename_i hc
        obtain ⟨front, rfl, hf⟩ := exists_quoted (Option.some.inj h)
        exact ⟨c :: front ++ [c], by simp, .quoted hc hf⟩
      · split at h
        · rename_i p hw
          cases h
          exact ⟨[c], rfl, .wildcard (wildcard?_eq_some_iff.1 hw)⟩
        · split at h
          · rename_i hc
            obtain ⟨front, he, hf⟩ := exists_unquoted (Option.some.inj h)
            refine ⟨front, he, .unquoted ?_ hf⟩
            -- The first character is always taken.
            rintro rfl
            have hlt := unquoted_cons_length hc (Option.some.inj h)
            rw [he, List.nil_append] at hlt
            exact Nat.lt_irrefl _ hlt
          · cases h

/-- Segments that are read make a word, unless there are none. -/
theorem exists_segments {cs rest : List Char} {ps : List Piece}
    (h : segments cs = .ok (ps, rest)) :
    ∃ front, cs = front ++ rest ∧ (front = [] ∧ ps = [] ∨ Word front ps) := by
  fun_induction segments cs generalizing ps with
  | case1 =>
      cases h
      exact ⟨[], rfl, .inl ⟨rfl, rfl⟩⟩
  | case2 => cases h
  | case3 cs qs r hs ih =>
      obtain ⟨qs', hq, rfl⟩ := Parsed.map_eq_ok h
      obtain ⟨front, rfl, hf⟩ := exists_segment hs
      obtain ⟨front', rfl, ⟨rfl, rfl⟩ | hw⟩ := ih hq
      · exact ⟨front, by simp, .inr (by simpa using .one hf)⟩
      · exact ⟨front ++ front', by simp, .inr (.more hf hw)⟩

theorem exists_word {cs rest : List Char} {ps : List Piece}
    (h : word? cs = some (.ok (ps, rest))) : ∃ front, cs = front ++ rest ∧ Word front ps := by
  obtain ⟨o, -, hs⟩ := Option.map_eq_some_iff.1 h
  obtain ⟨front, rfl, ⟨rfl, -⟩ | hw⟩ := exists_segments hs
  · exact absurd (word?_length h) (Nat.lt_irrefl _)
  · exact ⟨front, rfl, hw⟩

/-- Words that are read after a word make bare text with it. -/
theorem exists_moreWords {cs rest : List Char} {ps : List Piece}
    (h : moreWords cs = .ok (ps, rest)) :
    ∃ front, cs = front ++ rest ∧ ∀ {w qs}, Word w qs → Bare (w ++ front) (qs ++ ps) := by
  fun_induction moreWords cs generalizing ps with
  | case1 =>
      cases h
      exact ⟨[], rfl, fun hw ↦ by simpa using .one hw⟩
  | case2 =>
      cases h
      exact ⟨[], rfl, fun hw ↦ by simpa using .one hw⟩
  | case3 => cases h
  | case4 cs space hne qs r hw =>
      rename_i ih
      obtain ⟨qs', hq, rfl⟩ := Parsed.map_eq_ok h
      obtain ⟨word, hword, hd⟩ := exists_word hw
      obtain ⟨front, rfl, hf⟩ := ih hq
      refine ⟨space ++ word ++ front, ?_, fun hw' ↦ ?_⟩
      · rw [List.append_assoc, List.append_assoc, ← hword]
        exact (List.takeWhile_append_dropWhile).symm
      · have hspace : cs.takeWhile isSpace ≠ [] := fun he ↦ hne (List.isEmpty_iff.2 he)
        simpa using Bare.more hw' hspace (areSpaces_takeWhile cs) (hf hd)

/-- Bare text that is read is derived. -/
theorem exists_bare {cs rest : List Char} {ps : List Piece}
    (h : bare? cs = some (.ok (ps, rest))) : ∃ front, cs = front ++ rest ∧ Bare front ps := by
  rw [bare?] at h
  split at h
  · cases h
  · cases h
  · rename_i hw
    obtain ⟨qs', hq, rfl⟩ := Parsed.map_eq_ok (Option.some.inj h)
    obtain ⟨word, rfl, hd⟩ := exists_word hw
    obtain ⟨front, rfl, hf⟩ := exists_moreWords hq
    exact ⟨word ++ front, by simp, hf hd⟩

end LabPlan.Search
