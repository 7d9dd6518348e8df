import LabPlan.Search.Query
import LabPlan.Search.Recovery
import Mathlib

/-! # Positions of errors

A search that cannot be read is refused at a position in its text: that of a rest of the text that
was still to be read.  The position is counted in what comes before that rest, which is found by its
length in octets.  Nothing is lost by that: positions of different rests are different, a shorter
rest is further on, and what comes before is known from the position again. -/

namespace LabPlan.Search

namespace Position

variable {a b text : List Char} {c : Char}

/-! ## After some characters -/

theorem octets_append (a b : List Char) : octets (a ++ b) = octets a + octets b := by
  induction a with
  | nil => simp [octets]
  | cons c a ih => rw [List.cons_append, octets, octets, ih, Nat.add_assoc]

/-- Characters in front are found again by how many octets they take. -/
theorem front?_octets (a b : List Char) : front? (octets a) (a ++ b) = some a := by
  induction a with
  | nil => simp [octets, front?]
  | cons c a ih =>
      have hne : octets (c :: a) ≠ 0 := Nat.ne_of_gt (Nat.add_pos_left c.utf8Size_pos _)
      rw [List.cons_append, front?.eq_3 _ _ _ hne, octets, if_pos (Nat.le_add_right _ _),
        Nat.add_sub_cancel_left, ih, Option.map_some]

/-- The rest of a text begins at the position after what comes before. -/
theorem locate_append (a b : List Char) : locate (a ++ b) b = after a := by
  rw [locate, octets_append, Nat.add_sub_cancel_right, front?_octets, Option.getD_some]

theorem line_eq_one_iff : (after a).line = 1 ↔ '\n' ∉ a := by
  rw [after, Nat.add_eq_right, List.count_eq_zero]

theorem line_newline (a : List Char) : (after ('\n' :: a)).line = (after a).line + 1 := by
  rw [after, after, List.count_cons_self]

theorem line_cons (hc : c ≠ '\n') (a : List Char) : (after (c :: a)).line = (after a).line := by
  rw [after, after, List.count_cons_of_ne hc]

/-- A character in front is on the last line if that is the first one and the character does not
end it. -/
theorem column_eq (c : Char) (a : List Char) : (after (c :: a)).column =
    (after a).column + if (after a).line = 1 ∧ c ≠ '\n' then 1 else 0 := by
  simp only [line_eq_one_iff]
  rw [after, after, List.reverse_cons, Nat.add_right_comm, Nat.add_left_inj]
  by_cases ha : '\n' ∈ a
  · rw [if_neg fun h ↦ h.1 ha, List.takeWhile_append, if_neg, Nat.add_zero]
    intro hlen
    have hall := List.takeWhile_eq_self_iff.1 ((List.takeWhile_prefix _).eq_of_length hlen)
    simpa using hall '\n' (List.mem_reverse.2 ha)
  · have hall : ∀ d ∈ a.reverse, (d != '\n') = true := fun d hd ↦
      bne_iff_ne.2 (ne_of_mem_of_not_mem (List.mem_reverse.1 hd) ha)
    rw [List.takeWhile_append_of_pos hall, List.takeWhile_eq_self_iff.2 hall, List.length_append]
    by_cases hc : c = '\n'
    · simp [hc]
    · simp [ha, hc]

theorem column_newline (a : List Char) : (after ('\n' :: a)).column = (after a).column := by
  simp [column_eq]

theorem column_cons (hc : c ≠ '\n') (a : List Char) : (after (c :: a)).column =
    (after a).column + if (after a).line = 1 then 1 else 0 := by
  simp [column_eq, hc]

/-! ## Positions in reading order -/

theorem Precedes.asymm {p q : Position} (h : p.Precedes q) : ¬ q.Precedes p := by
  rw [Precedes] at h ⊢
  omega

/-- After more characters the position is further on. -/
theorem precedes_after (a : List Char) (hb : b ≠ []) : (after a).Precedes (after (a ++ b)) := by
  induction a with
  | nil =>
      obtain ⟨c, b, rfl⟩ := List.exists_cons_of_ne_nil hb
      have hline : 0 < (after b).line := Nat.succ_pos _
      have hcolumn : 0 < (after b).column := Nat.succ_pos _
      change 1 < _ ∨ 1 = _ ∧ 1 < _
      rw [List.nil_append]
      by_cases hc : c = '\n'
      · subst hc
        rw [line_newline]
        omega
      · rw [line_cons hc, column_cons hc]
        split <;> omega
  | cons c a ih =>
      rw [Precedes] at ih ⊢
      rw [List.cons_append]
      by_cases hc : c = '\n'
      · subst hc
        rw [line_newline, line_newline, column_newline, column_newline]
        omega
      · rw [line_cons hc, line_cons hc, column_cons hc, column_cons hc]
        split <;> split <;> omega

/-- What comes before is known from the position after it. -/
theorem before_after (a b : List Char) : before (a ++ b) (after a) = a := by
  induction a with
  | nil => simp [before, after]
  | cons c a ih =>
      obtain ⟨l, hl⟩ : ∃ l, (after a).line = l + 1 := ⟨_, rfl⟩
      obtain ⟨m, hm⟩ : ∃ m, (after a).column = m + 1 := ⟨_, rfl⟩
      rw [before, hl, hm] at ih
      rw [List.cons_append, before]
      by_cases hc : c = '\n'
      · subst hc
        rw [line_newline, column_newline, Text.split_sep, hl, hm]
        simpa using ih
      · obtain ⟨s, ss, hs⟩ := List.exists_cons_of_ne_nil (Text.split_ne_nil '\n' (a ++ b))
        rw [hs] at ih
        rw [line_cons hc, column_cons hc, Text.split_of_ne hc hs, hl, hm]
        -- The character goes into the first line, which is also the last one if there is no other.
        cases l with
        | zero => simpa using ih
        | succ l => simpa using ih

theorem before_locate {rest : List Char} (h : a ++ rest = text) :
    before text (locate text rest) = a := by
  rw [← h, locate_append, before_after]

theorem locate_inj (ha : a <:+ text) (hb : b <:+ text) (h : locate text a = locate text b) :
    a = b := by
  obtain ⟨front, hfront⟩ := ha
  obtain ⟨front', hfront'⟩ := hb
  have hbefore : front = front' := by rw [← before_locate hfront, h, before_locate hfront']
  rw [← hfront', hbefore] at hfront
  exact List.append_cancel_left hfront

/-- A shorter rest is further on. -/
theorem precedes_locate (ha : a <:+ text) (hb : b <:+ text) (h : b.length < a.length) :
    (locate text a).Precedes (locate text b) := by
  obtain ⟨between, rfl⟩ := List.suffix_of_suffix_length_le hb ha (Nat.le_of_lt h)
  obtain ⟨front, rfl⟩ := ha
  have hne : between ≠ [] := by
    rintro rfl
    exact Nat.lt_irrefl _ h
  rw [locate_append, ← List.append_assoc, locate_append]
  exact precedes_after front hne

/-- Positions are in the order of the rests, the longest first. -/
theorem precedes_locate_iff (ha : a <:+ text) (hb : b <:+ text) :
    (locate text a).Precedes (locate text b) ↔ b.length < a.length := by
  refine ⟨fun h ↦ ?_, precedes_locate ha hb⟩
  by_contra hlt
  have hle := Nat.le_of_not_lt hlt
  rcases Nat.lt_or_eq_of_le hle with hlt | heq
  · exact h.asymm (precedes_locate hb ha hlt)
  · obtain rfl := (List.suffix_of_suffix_length_le ha hb hle).eq_of_length heq
    exact h.asymm h

end Position

/-! ## Where reading stops -/

/-- The trace names a place, and all places that it names are rests of the text. -/
structure Trace.StaysIn (t : Trace) (cs : List Char) : Prop where
  ne_nil : t ≠ []
  suffix : ∀ m ∈ t, m.rest <:+ cs

/-- What is left after a value is a rest of the text, and so are the places of a failure. -/
def Parsed.StaysIn {α : Type} (r : Parsed α) (cs : List Char) : Prop :=
  match r with
  | .ok (_, rest) => rest <:+ cs
  | .error t => t.StaysIn cs

variable {cs ds rest : List Char}

namespace Trace

variable {t : Trace} {m : Mark}

theorem StaysIn.mono (h : t.StaysIn ds) (hs : ds <:+ cs) : t.StaysIn cs :=
  ⟨h.ne_nil, fun m hm ↦ (h.suffix m hm).trans hs⟩

theorem staysIn_singleton (hm : m.rest <:+ cs) : StaysIn [m] cs :=
  ⟨List.cons_ne_nil m [], List.forall_mem_singleton.2 hm⟩

/-- A failure is passed on from a part of the text with a place of its own. -/
theorem StaysIn.concat (h : t.StaysIn cs) (hm : m.rest <:+ cs) : StaysIn (t ++ [m]) cs :=
  ⟨List.append_ne_nil_of_left_ne_nil h.ne_nil [m],
    List.forall_mem_append.2 ⟨h.suffix, List.forall_mem_singleton.2 hm⟩⟩

theorem staysIn_brokenEscape (cs : List Char) : StaysIn brokenEscape cs :=
  (staysIn_singleton List.nil_suffix).concat List.nil_suffix

end Trace

namespace Parsed

variable {α β : Type} {r : Parsed α}

theorem StaysIn.mono (h : r.StaysIn ds) (hs : ds <:+ cs) : r.StaysIn cs := by
  match r with
  | .ok (a, rest) => exact List.IsSuffix.trans h hs
  | .error t => exact Trace.StaysIn.mono h hs

theorem StaysIn.map (h : r.StaysIn cs) (f : α → β) : (r.map f).StaysIn cs := by
  match r with
  | .ok (a, rest) => exact h
  | .error t => exact h

end Parsed

theorem unquoted_staysIn (cs : List Char) : (unquoted cs).StaysIn cs := by
  fun_induction unquoted cs with
  | case1 => exact List.suffix_rfl
  | case2 => exact Trace.staysIn_brokenEscape _
  | case3 d ds ih => exact (ih.map _).mono ((List.suffix_cons d ds).trans (List.suffix_cons _ _))
  | case4 c cs _ _ ih => exact (ih.map _).mono (List.suffix_cons c cs)
  | case5 => exact List.suffix_rfl

theorem quoted_staysIn (quote : Char) (cs : List Char) : (quoted quote cs).StaysIn cs := by
  fun_induction quoted quote cs with
  | case1 => exact (Trace.staysIn_singleton List.suffix_rfl).concat List.suffix_rfl
  | case2 => exact Trace.staysIn_brokenEscape _
  | case3 d ds ih => exact (ih.map _).mono ((List.suffix_cons d ds).trans (List.suffix_cons _ _))
  | case4 cs => exact List.suffix_cons _ cs
  | case5 c cs _ _ ih => exact (ih.map _).mono (List.suffix_cons c cs)

theorem segment?_staysIn {r : Parsed (List Piece)} (h : segment? cs = some r) :
    r.StaysIn cs := by
  cases cs with
  | nil => cases h
  | cons c cs =>
      rw [segment?] at h
      split at h
      · obtain rfl := Option.some.inj h
        exact (quoted_staysIn c cs).mono (List.suffix_cons c cs)
      · split at h
        · obtain rfl := Option.some.inj h
          exact List.suffix_cons c cs
        · obtain ⟨-, h⟩ := Option.ite_none_right_eq_some.1 h
          obtain rfl := Option.some.inj h
          exact unquoted_staysIn (c :: cs)

theorem segments_staysIn (cs : List Char) : (segments cs).StaysIn cs := by
  fun_induction segments cs with
  | case1 => exact List.suffix_rfl
  | case2 cs t ht => exact segment?_staysIn ht
  | case3 cs ps rest hrest ih => exact (ih.map _).mono (segment?_staysIn hrest)

theorem word?_staysIn {r : Parsed (List Piece)} (h : word? cs = some r) : r.StaysIn cs := by
  obtain ⟨_, -, rfl⟩ := Option.map_eq_some_iff.1 h
  exact segments_staysIn cs

theorem moreWords_staysIn (cs : List Char) : (moreWords cs).StaysIn cs := by
  fun_induction moreWords cs with
  | case1 => exact List.suffix_rfl
  | case2 => exact List.suffix_rfl
  | case3 cs space hspace t ht =>
      exact (word?_staysIn ht).mono (List.dropWhile_suffix isSpace)
  | case4 cs space hspace ps rest hrest ih =>
      have hword : rest <:+ cs.dropWhile isSpace := word?_staysIn hrest
      exact (ih.map _).mono (hword.trans (List.dropWhile_suffix isSpace))

theorem bare?_staysIn {r : Parsed (List Piece)} (h : bare? cs = some r) : r.StaysIn cs := by
  rw [bare?] at h
  split at h
  · cases h
  · rename_i t ht
    obtain rfl := Option.some.inj h
    exact word?_staysIn ht
  · rename_i ps rest hrest
    obtain rfl := Option.some.inj h
    exact ((moreWords_staysIn rest).map _).mono (word?_staysIn hrest)

theorem fieldValue_staysIn (cs : List Char) : (fieldValue cs).StaysIn cs := by
  have hstart : cs.dropWhile isSpace <:+ cs := List.dropWhile_suffix isSpace
  rw [fieldValue]
  split
  · exact (Trace.staysIn_singleton hstart).concat hstart
  · rename_i t ht
    exact Trace.StaysIn.concat ((word?_staysIn ht).mono hstart) hstart
  · rename_i ps rest hrest
    have hword : rest <:+ cs := (word?_staysIn hrest).mono hstart
    split
    · exact hword
    · split
      · exact hword
      · exact (Trace.staysIn_singleton hword).concat hword
      · rename_i t ht
        have hnext : rest.dropWhile isSpace <:+ cs := (List.dropWhile_suffix isSpace).trans hword
        exact Trace.StaysIn.concat ((segment?_staysIn ht).mono hnext) hword

theorem fieldName?_suffix {name : String} (h : fieldName? cs = some (name, rest)) :
    rest <:+ cs := by
  rw [fieldName?] at h
  split at h
  · rename_i c n more _ hdrop
    obtain ⟨-, rfl⟩ := Prod.mk.inj (Option.some.inj h)
    have hcolon := List.dropWhile_suffix (l := cs) isFieldChar
    rw [hdrop] at hcolon
    exact (List.suffix_cons ':' more).trans hcolon
  · cases h

theorem term?_staysIn {r : Parsed Term} (h : term? cs = some r) : r.StaysIn cs := by
  rw [term?] at h
  split at h
  · rename_i name rest hrest
    obtain rfl := Option.some.inj h
    exact ((fieldValue_staysIn rest).map _).mono (fieldName?_suffix hrest)
  · obtain ⟨b, hb, rfl⟩ := Option.map_eq_some_iff.1 h
    exact (bare?_staysIn hb).map _

theorem separator?_suffix (h : separator? cs = some rest) : rest <:+ cs := by
  rw [separator?] at h
  split at h
  · rename_i more hdrop
    obtain rfl := Option.some.inj h
    have hcomma := List.dropWhile_suffix (l := cs) isSpace
    rw [hdrop] at hcomma
    exact (List.dropWhile_suffix isSpace).trans ((List.suffix_cons ',' more).trans hcomma)
  · cases h

theorem moreTerms_staysIn (cs : List Char) : (moreTerms cs).StaysIn cs := by
  fun_induction moreTerms cs with
  | case1 => exact List.suffix_rfl
  | case2 => exact List.suffix_rfl
  | case3 cs start hstart t ht => exact (term?_staysIn ht).mono (separator?_suffix hstart)
  | case4 cs start hstart t rest hrest ih =>
      have hterm : rest <:+ start := term?_staysIn hrest
      exact (ih.map _).mono (hterm.trans (separator?_suffix hstart))

/-- A text that is no search leaves a trace inside it. -/
theorem query_staysIn {t : Trace} (h : query cs = .error t) : t.StaysIn cs := by
  have hstart : cs.dropWhile isSpace <:+ cs := List.dropWhile_suffix isSpace
  rw [query] at h
  split at h
  · obtain rfl := Except.error.inj h
    exact (Trace.staysIn_singleton hstart).concat hstart
  · rename_i t' ht
    obtain rfl := Except.error.inj h
    exact Trace.StaysIn.mono (term?_staysIn ht) hstart
  · rename_i term rest hrest
    have hterm : rest <:+ cs := (term?_staysIn hrest).mono hstart
    have hmore := (moreTerms_staysIn rest).mono hterm
    split at h
    · rename_i t' ht
      obtain rfl := Except.error.inj h
      rwa [ht] at hmore
    · rename_i ts rest' hrest'
      rw [hrest'] at hmore
      split at h
      · cases h
      · rename_i left hleft
        obtain rfl := Except.error.inj h
        exact Trace.staysIn_singleton ((List.dropWhile_suffix isSpace).trans hmore)

/-! ## Refused searches -/

/-- A refused search is refused with its text, at the position of one of its rests. -/
theorem position?_of_read {text : String} {e : Error} (h : read text = .error e) :
    e.text = text ∧ ∃ rest, rest <:+ text.toList ∧
      e.position? = some (Position.locate text.toList rest) := by
  rw [read] at h
  split at h
  · cases h
  · cases hq : query text.toList with
    | ok ts =>
        rw [hq] at h
        cases h
    | error t =>
        rw [hq] at h
        obtain rfl := Except.error.inj h
        obtain ⟨hne, hsuffix⟩ := query_staysIn hq
        obtain ⟨m, t, rfl⟩ := List.exists_cons_of_ne_nil hne
        exact ⟨rfl, m.rest, hsuffix m List.mem_cons_self, rfl⟩

/-- A search is refused with its own text, at the position of a rest of it.  The rests of any text
have different positions, in the order in which they are read from the first line and column on, and
what comes before a rest is what its position says. -/
theorem positions_faithful (text : String) :
    (∀ e, read text = .error e → e.text = text ∧ ∃ rest, rest <:+ text.toList ∧
      e.position? = some (Position.locate text.toList rest)) ∧
    Position.locate text.toList text.toList = ⟨1, 1⟩ ∧
    (∀ a b, a <:+ text.toList → b <:+ text.toList →
      Position.locate text.toList a = Position.locate text.toList b → a = b) ∧
    (∀ a b, a <:+ text.toList → b <:+ text.toList →
      ((Position.locate text.toList a).Precedes (Position.locate text.toList b) ↔
        b.length < a.length)) ∧
    ∀ front rest, front ++ rest = text.toList →
      Position.before text.toList (Position.locate text.toList rest) = front := by
  refine ⟨fun e he ↦ position?_of_read he, Position.locate_append [] text.toList, ?injective,
    ?ordered, ?recovered⟩
  case injective => exact fun a b ha hb h ↦ Position.locate_inj ha hb h
  case ordered => exact fun a b ha hb ↦ Position.precedes_locate_iff ha hb
  case recovered => exact fun front rest h ↦ Position.before_locate h

/-- A search on the second line, for a value of two words. -/
def twoWords : String := "\nname:größe bar"

/-- The theorem at that search: it is refused before the space on the second line. -/
theorem twoWords_position : ∃ e, read twoWords = .error e ∧ e.position? = some ⟨2, 11⟩ ∧
    e.text = twoWords ∧ Position.before twoWords.toList ⟨2, 11⟩ = "\nname:größe".toList ∧
    Position.Precedes ⟨1, 1⟩ ⟨2, 11⟩ := by
  obtain ⟨hrefused, hstart, -, hordered, hrecovered⟩ := positions_faithful twoWords
  have hquery : query "\nname:größe bar".toList = .error [⟨" bar".toList, .not⟩,
      ⟨" bar".toList, .within "quotes around multi-word field value"⟩] := by cbv
  have hread : read twoWords = .error ⟨twoWords, .unreadable [⟨" bar".toList, .not⟩,
      ⟨" bar".toList, .within "quotes around multi-word field value"⟩]⟩ := by
    rw [read, if_neg (by decide), twoWords, hquery]
    rfl
  have hlocate : Position.locate twoWords.toList " bar".toList = ⟨2, 11⟩ := by decide
  have hsuffix : " bar".toList <:+ twoWords.toList := ⟨"\nname:größe".toList, by decide⟩
  refine ⟨_, hread, congrArg some hlocate, (hrefused _ hread).1, ?_, ?_⟩
  · rw [← hlocate]
    exact hrecovered _ _ (by decide)
  · rw [← hstart, ← hlocate]
    exact (hordered _ _ List.suffix_rfl hsuffix).2 (by decide)

end LabPlan.Search
