import LabPlan.Proofs.Search.Rendering

/-! # Blank characters around a search

Words and terms have space between them, which is less than all blank characters: a no-break space
or an ideographic one is blank, but it is no space.  No term goes on with a blank character, so a
search that is surrounded by blank characters is read up to them, and it is the same search if they
are space.  Other blank characters around a search make it unreadable, although a text of nothing
else is read as a search without terms. -/

namespace LabPlan.Search

/-- Nothing but blank characters. -/
def AreBlank (cs : List Char) : Prop := ∀ c ∈ cs, Text.isBlank c = true

instance (cs : List Char) : Decidable (AreBlank cs) :=
  decidable_of_iff (cs.all Text.isBlank = true) List.all_eq_true

variable {cs sp rest before after : List Char} {ts us : List Term}

/-! ## Blank characters and space -/

theorem IsSpace.isBlank {c : Char} (h : IsSpace c) : Text.isBlank c = true := by
  simp only [IsSpace, List.mem_cons, List.not_mem_nil, or_false] at h
  rcases h with rfl | rfl | rfl | rfl <;> rfl

theorem AreSpaces.areBlank (h : AreSpaces cs) : AreBlank cs := fun c hc ↦ (h c hc).isBlank

theorem areSpaces_append_iff : AreSpaces (sp ++ cs) ↔ AreSpaces sp ∧ AreSpaces cs :=
  List.forall_mem_append

theorem areBlank_append_iff : AreBlank (sp ++ cs) ↔ AreBlank sp ∧ AreBlank cs :=
  List.forall_mem_append

/-! ## After a term -/

namespace AreBlank

/-- No segment begins with a blank character. -/
theorem segment? (h : AreBlank cs) : segment? cs = none := by
  cases cs with
  | nil => rfl
  | cons c cs =>
      apply segment?_eq_none_iff.2
      by_contra hopens
      have hc := isBlank_eq_false (by simpa using hopens)
      rw [h c List.mem_cons_self] at hc
      cases hc

theorem dropWhile (h : AreBlank cs) : AreBlank (cs.dropWhile isSpace) :=
  fun c hc ↦ h c ((List.dropWhile_sublist isSpace).mem hc)

/-- A term stops before blank characters, whether they are space or not. -/
theorem stops (h : AreBlank cs) : Stops cs where
  segment? := h.segment?
  segment?_dropWhile := h.dropWhile.segment?
  ne_colon := by
    rintro ds rfl
    exact absurd (h ':' List.mem_cons_self) (by decide)

theorem separator? (h : AreBlank cs) : separator? cs = none := by
  rw [Search.separator?]
  split
  · rename_i ds hd
    have hcomma := h.dropWhile
    rw [hd] at hcomma
    exact absurd (hcomma ',' List.mem_cons_self) (by decide)
  · rfl

end AreBlank

/-- Blank characters after derived terms are passed over only if they are space. -/
theorem TermsText.query_append_eq_ok_iff (h : TermsText cs ts) (hs : AreSpaces sp)
    (hrest : AreBlank rest) :
    query (sp ++ cs ++ rest) = .ok us ↔ us = ts ∧ AreSpaces rest := by
  obtain ⟨t, ts', left, rfl, hterm, hmore⟩ := h.read hrest.stops hrest.separator?
  rw [query, List.append_assoc, dropWhile_isSpace_append hs (h.opens.append rest), hterm]
  simp only [hmore]
  rw [← dropWhile_isSpace_eq_nil_iff]
  cases rest.dropWhile isSpace with
  | nil => simp [eq_comm]
  | cons c left => simp

/-! ## Before a term -/

theorem query_cons_of_isSpace {c : Char} (h : isSpace c = true) : query (c :: cs) = query cs := by
  rw [query, List.dropWhile_cons_of_pos h, query]

/-- A search does not begin with a blank character that is no space. -/
theorem query_cons_ne_ok {c : Char} (hb : Text.isBlank c = true) (hs : isSpace c = false) :
    query (c :: cs) ≠ .ok us := by
  intro hquery
  generalize htext : c :: cs = text at hquery
  cases queryText_of_query hquery with
  | @mk sp ds sp' _ hsp h _ =>
      -- The character is the first one of the space, or of the terms if there is no space.
      cases sp with
      | nil =>
          obtain ⟨d, es, rfl, hd⟩ := h.opens
          obtain ⟨rfl, -⟩ := List.cons.inj htext
          rw [isBlank_eq_false hd] at hb
          cases hb
      | cons d sp =>
          obtain ⟨rfl, -⟩ := List.cons.inj htext
          rw [hsp.isSpace c List.mem_cons_self] at hs
          cases hs

/-- Blank characters before a text are passed over only if they are space. -/
theorem query_append_eq_ok_iff (hb : AreBlank before) :
    query (before ++ cs) = .ok us ↔ AreSpaces before ∧ query cs = .ok us := by
  induction before with
  | nil =>
      have hnil : AreSpaces [] := List.forall_mem_nil _
      simp [hnil]
  | cons c before ih =>
      obtain ⟨hc, hbefore⟩ := List.forall_mem_cons.1 hb
      rw [List.cons_append, AreSpaces, List.forall_mem_cons]
      cases hs : isSpace c with
      | true =>
          rw [query_cons_of_isSpace hs, ih hbefore, ← isSpace_iff]
          simp [hs, AreSpaces]
      | false => simp [query_cons_ne_ok hc hs, ← isSpace_iff, hs]

/-! ## Around a search -/

theorem query_between_eq_ok_iff (h : query cs = .ok ts) (hb : AreBlank before)
    (ha : AreBlank after) : query (before ++ cs ++ after) = .ok us ↔
      us = ts ∧ AreSpaces before ∧ AreSpaces after := by
  cases queryText_of_query h with
  | @mk sp ds sp' _ hs hts hs' =>
      have hrest : AreBlank (sp' ++ after) := areBlank_append_iff.2 ⟨hs'.areBlank, ha⟩
      have hassoc : before ++ (sp ++ ds ++ sp') ++ after =
          before ++ (sp ++ ds ++ (sp' ++ after)) := by simp
      rw [hassoc, query_append_eq_ok_iff hb, hts.query_append_eq_ok_iff hs hrest,
        areSpaces_append_iff]
      constructor
      · rintro ⟨hbefore, rfl, -, hafter⟩
        exact ⟨rfl, hbefore, hafter⟩
      · rintro ⟨rfl, hbefore, hafter⟩
        exact ⟨hbefore, rfl, hs', hafter⟩

theorem read_of_areBlank {text : String} (h : AreBlank text.toList) : read text = .ok [] := by
  rw [read, if_pos (List.all_eq_true.2 h)]

/-- A search with blank characters around it is read as the same search if they are space, or if
the search is blank itself; otherwise it is not read at all. -/
theorem read_between_eq_ok_iff {text : String} (h : read text = .ok ts) {before after : String}
    (hb : AreBlank before.toList) (ha : AreBlank after.toList) (us : List Term) :
    read (before ++ text ++ after) = .ok us ↔ us = ts ∧
      (AreBlank text.toList ∨ AreSpaces before.toList ∧ AreSpaces after.toList) := by
  by_cases ht : AreBlank text.toList
  · have hall : AreBlank (before ++ text ++ after).toList := by
      rw [String.toList_append, String.toList_append]
      exact areBlank_append_iff.2 ⟨areBlank_append_iff.2 ⟨hb, ht⟩, ha⟩
    rw [read_of_areBlank ht, Except.ok.injEq] at h
    rw [read_of_areBlank hall, Except.ok.injEq, h]
    simp [ht, eq_comm]
  · have hblank : ∃ c ∈ text.toList, Text.isBlank c = false := by simpa [AreBlank] using ht
    have hblank' : ∃ c ∈ (before ++ text ++ after).toList, Text.isBlank c = false := by
      obtain ⟨c, hc, hcb⟩ := hblank
      exact ⟨c, by simp [hc], hcb⟩
    rw [read_eq_ok_iff_query hblank] at h
    rw [read_eq_ok_iff_query hblank', String.toList_append, String.toList_append,
      query_between_eq_ok_iff h hb ha]
    simp [ht]

/-- The theorem at a search that ends in an escaped blank character. -/
theorem read_between_escapedBlank :
    read "deep\\\u3000" = .ok [⟨none, [.literal "deep\u3000"]⟩] ∧
      AreBlank "\r\n ".toList ∧ AreBlank "\t".toList ∧
      read ("\r\n " ++ "deep\\\u3000" ++ "\t") = .ok [⟨none, [.literal "deep\u3000"]⟩] := by
  have hword : Word ("deep".toList ++ ['\\', '\u3000']) _ :=
    .more (.unquoted (List.cons_ne_nil _ _) (unquoted_of_fieldChars (isFieldChar_of_all rfl)))
      (.one (.unquoted (List.cons_ne_nil _ _) (.escape (.self (by decide)) .nil)))
  have hquery := QueryText.mk (List.forall_mem_nil _) (.one (.bare (.one hword) (Token.joins_iff.2 rfl)))
    (List.forall_mem_nil _)
  have hread : read "deep\\\u3000" = .ok [⟨none, [.literal "deep\u3000"]⟩] :=
    (read_eq_ok_iff_query ⟨'d', by decide, rfl⟩).2 (query_of_queryText hquery)
  have hblank : AreBlank "\r\n ".toList ∧ AreBlank "\t".toList := by decide
  have hspaces : AreSpaces "\r\n ".toList ∧ AreSpaces "\t".toList := by
    simp [AreSpaces, IsSpace]
  exact ⟨hread, hblank.1, hblank.2,
    (read_between_eq_ok_iff hread hblank.1 hblank.2 _).2 ⟨rfl, .inr hspaces⟩⟩

/-- Not every blank character may follow a search: an ideographic space may not. -/
theorem not_read_before_wideSpace :
    read "mnist" = .ok [⟨none, [.literal "mnist"]⟩] ∧ AreBlank "".toList ∧
      AreBlank "\u3000".toList ∧
      read ("" ++ "mnist" ++ "\u3000") ≠ .ok [⟨none, [.literal "mnist"]⟩] := by
  have hword : Word "mnist".toList _ :=
    .one (.unquoted (List.cons_ne_nil _ _) (unquoted_of_fieldChars (isFieldChar_of_all rfl)))
  have hterms := TermsText.one (.bare (.one hword) (Token.joins_iff.2 rfl))
  have hspaces : AreSpaces [] := List.forall_mem_nil _
  have hread : read "mnist" = .ok [⟨none, [.literal "mnist"]⟩] :=
    (read_eq_ok_iff_query ⟨'m', by decide, rfl⟩).2
      (query_of_queryText (QueryText.mk hspaces hterms hspaces))
  refine ⟨hread, by decide, by decide, fun h ↦ ?_⟩
  have hquery := (read_eq_ok_iff_query ⟨'m', by decide, rfl⟩).1 h
  have hwide : AreBlank ['\u3000'] := by decide
  obtain ⟨-, hs⟩ := (hterms.query_append_eq_ok_iff hspaces hwide).1 hquery
  exact absurd (hs '\u3000' List.mem_cons_self) (by decide)

end LabPlan.Search
