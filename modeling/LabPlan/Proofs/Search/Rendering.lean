import LabPlan.Proofs.Search.Terms
import LabPlan.Search.Render

/-! # Searches written out

The searches that some text stands for are the normal ones, and each of them is read back from its
canonical text.  What is put between quotes there is derived piece by piece: every piece is written
as a wildcard, as a plain character or as an escape that stands for the character it escapes. -/

namespace LabPlan.Search

namespace Token

/-! ## Between quotes -/

/-- A character of a literal as it is written between double quotes. -/
def quotedChar (c : Char) : List Char := if isSpecial c || c == '"' then ['\\', c] else [c]

/-- A literal is written character by character. -/
theorem quotedText_literal (s : String) :
    (literal s).quotedText = s.toList.flatMap quotedChar := by
  rw [quotedText, queryText, String.toList_ofList, List.flatMap_assoc]
  refine List.flatMap_congr fun c _ ↦ ?_
  rw [quotedChar]
  cases hc : isSpecial c with
  | false => by_cases hq : c = '"' <;> simp [hq]
  | true =>
      have hq : c ≠ '"' := by
        rintro rfl
        cases hc
      simp [hq]

/-- A written character is derived as itself. -/
theorem quoted_quotedChar (c : Char) {cs : List Char} {ps : List Piece} (h : Quoted '"' cs ps) :
    Quoted '"' (quotedChar c ++ cs) (.char c :: ps) := by
  rw [quotedChar]
  split
  · rename_i hc
    refine .escape (.self ?_) h
    rintro rfl
    cases hc
  · rename_i hc
    simp only [isSpecial, Bool.or_eq_true, beq_iff_eq, not_or] at hc
    obtain ⟨⟨⟨hstar, hmark⟩, hslash⟩, hquote⟩ := hc
    exact .plain (by simp [hstar, hmark, hslash, hquote]) h

theorem quoted_quotedText (t : Token) {cs : List Char} {ps : List Piece} (h : Quoted '"' cs ps) :
    Quoted '"' (t.quotedText ++ cs) (t.pieces ++ ps) := by
  cases t with
  | anyChars => exact .wildcard .anyChars h
  | oneChar => exact .wildcard .oneChar h
  | literal s =>
      rw [quotedText_literal, pieces]
      induction s.toList with
      | nil => exact h
      | cons c _ ih =>
          rw [List.flatMap_cons, List.append_assoc]
          exact quoted_quotedChar c ih

/-- A value is derived from what is written of it between quotes. -/
theorem quoted_flatMap_quotedText (ts : List Token) :
    Quoted '"' (ts.flatMap quotedText) (ts.flatMap pieces) := by
  induction ts with
  | nil => exact .nil
  | cons t ts ih => exact quoted_quotedText t ih

end Token

/-! ## Canonical texts -/

/-- A normal term is derived from its canonical text. -/
theorem termText_text {t : Term} (h : t.IsNormal) : TermText t.text t := by
  obtain ⟨field, value⟩ := t
  have hvalue : Word ('"' :: value.flatMap Token.quotedText ++ ['"']) (value.flatMap Token.pieces) :=
    .one (.quoted (.inl rfl) (Token.quoted_flatMap_quotedText value))
  have hjoins : Token.Joins value (value.flatMap Token.pieces) := ⟨rfl, h.value⟩
  cases field with
  | none => exact .bare (.one hvalue) hjoins
  | some name =>
      obtain ⟨hne, hchars⟩ := h.field name rfl
      have hname : name.toList ≠ [] := fun he ↦ hne (String.toList_eq_nil_iff.1 he)
      have hspaces : AreSpaces [] := List.forall_mem_nil _
      have hterm := TermText.field hname hchars hspaces hvalue hjoins
      rw [String.ofList_toList] at hterm
      simpa [Term.text] using hterm

/-- Normal terms are derived from their canonical texts with commas between them. -/
theorem termsText_intercalate {ts : List Term} (hne : ts ≠ []) (h : ∀ t ∈ ts, t.IsNormal) :
    TermsText ([','].intercalate (ts.map Term.text)) ts := by
  induction ts with
  | nil => exact absurd rfl hne
  | cons t ts ih =>
      obtain ⟨ht, hts⟩ := List.forall_mem_cons.1 h
      cases ts with
      | nil =>
          rw [List.map_singleton, List.intercalate_singleton]
          exact .one (termText_text ht)
      | cons u us =>
          have hspaces : AreSpaces [] := List.forall_mem_nil _
          have hterms := ih (List.cons_ne_nil u us) hts
          rw [List.map_cons, List.map_cons, List.intercalate_cons_cons, ← List.map_cons]
          simpa using TermsText.more (termText_text ht) hspaces hspaces hterms

/-- A normal search is derived from its canonical text. -/
theorem queryText_textOf {ts : List Term} (hne : ts ≠ []) (h : ∀ t ∈ ts, t.IsNormal) :
    QueryText (textOf ts).toList ts := by
  have hspaces : AreSpaces [] := List.forall_mem_nil _
  rw [textOf, String.toList_ofList]
  simpa using QueryText.mk hspaces (termsText_intercalate hne h) hspaces

/-! ## What is derived -/

/-- No segment begins with a blank character. -/
theorem isBlank_eq_false {c : Char} (h : opensSegment c = true) : Text.isBlank c = false := by
  simp only [opensSegment, Bool.or_eq_true, beq_iff_eq, Option.isSome_iff_exists] at h
  obtain (((rfl | rfl) | ⟨p, hp⟩) | rfl) | hc := h
  · rfl
  · rfl
  · cases wildcard?_eq_some_iff.1 hp
    · rfl
    · rfl
  · rfl
  · exact (isUnquoted_iff.1 hc).1

/-- A text that is derived is not blank. -/
theorem QueryText.exists_not_isBlank {cs : List Char} {ts : List Term} (h : QueryText cs ts) :
    ∃ c ∈ cs, Text.isBlank c = false := by
  obtain ⟨-, h, -⟩ := h
  obtain ⟨c, ds, rfl, hc⟩ := h.opens
  exact ⟨c, by simp, isBlank_eq_false hc⟩

theorem TermText.isNormal {cs : List Char} {t : Term} (h : TermText cs t) : t.IsNormal := by
  refine ⟨fun name hname ↦ ?_, h.areJoined⟩
  cases h with
  | @field n _ _ _ _ hne hn _ _ _ =>
      obtain rfl := Option.some.inj hname
      refine ⟨fun he ↦ hne (String.ofList_eq_empty_iff.1 he), ?_⟩
      rwa [String.toList_ofList]
  | bare => cases hname

theorem TermsText.isNormal {cs : List Char} {ts : List Term} (h : TermsText cs ts) :
    ∀ t ∈ ts, t.IsNormal := by
  induction h with
  | one h => exact List.forall_mem_singleton.2 h.isNormal
  | more h _ _ _ ih => exact List.forall_mem_cons.2 ⟨h.isNormal, ih⟩

/-- A search that is derived from some text is normal. -/
theorem QueryText.isNormal {cs : List Char} {ts : List Term} (h : QueryText cs ts) :
    ∀ t ∈ ts, t.IsNormal := by
  obtain ⟨-, h, -⟩ := h
  exact h.isNormal

/-! ## Texts -/

/-- A search with at least one term is read from some text that is not blank exactly if its terms
are normal, and then it is read from its canonical text. -/
theorem exists_read_iff_isNormal {ts : List Term} (hne : ts ≠ []) :
    ((∃ text : String, (∃ c ∈ text.toList, Text.isBlank c = false) ∧ read text = .ok ts) ↔
      ∀ t ∈ ts, t.IsNormal) ∧
    ((∀ t ∈ ts, t.IsNormal) →
      (∃ c ∈ (textOf ts).toList, Text.isBlank c = false) ∧ read (textOf ts) = .ok ts) := by
  have hcanonical (h : ∀ t ∈ ts, t.IsNormal) :
      (∃ c ∈ (textOf ts).toList, Text.isBlank c = false) ∧ read (textOf ts) = .ok ts := by
    have hquery := queryText_textOf hne h
    have hblank := hquery.exists_not_isBlank
    exact ⟨hblank, (read_eq_ok_iff_query hblank).2 (query_of_queryText hquery)⟩
  refine ⟨⟨?_, fun h ↦ ⟨textOf ts, hcanonical h⟩⟩, hcanonical⟩
  rintro ⟨text, hblank, hread⟩
  exact (queryText_of_query ((read_eq_ok_iff_query hblank).1 hread)).isNormal

/-- A search for literal text that would mean something else outside quotes or without escapes, for
nothing at all, and for a line feed after any character. -/
def awkward : List Term := [⟨some "tag", [.literal "a\"b\\n, *:", .anyChars]⟩, ⟨none, []⟩,
  ⟨some "is_a", [.oneChar, .literal "\n"]⟩]

/-- The theorem at this search. -/
theorem awkward_read : awkward ≠ [] ∧ (∀ t ∈ awkward, t.IsNormal) ∧
    textOf awkward = "tag:\"a\\\"b\\\\n, \\*:*\",\"\",is_a:\"?\n\"" ∧
    (∃ c ∈ (textOf awkward).toList, Text.isBlank c = false) ∧
    read (textOf awkward) = .ok awkward := by
  have hne : awkward ≠ [] := List.cons_ne_nil _ _
  have hfield {name : String} {value : List Token} (hname : name ≠ "")
      (hchars : name.toList.all isFieldChar = true) (hv : Token.AreJoined value) :
      Term.IsNormal ⟨some name, value⟩ :=
    ⟨fun _ hn ↦ Option.some.inj hn ▸ ⟨hname, isFieldChar_of_all hchars⟩, hv⟩
  have hnormal : ∀ t ∈ awkward, t.IsNormal := by
    refine List.forall_mem_cons.2 ⟨?tag, List.forall_mem_cons.2 ⟨?nothing, ?line⟩⟩
    case tag => exact hfield (by decide) rfl (Token.areJoined_iff.2 (by decide))
    case nothing => exact ⟨fun _ hn ↦ absurd hn nofun, .nil⟩
    case line =>
      refine List.forall_mem_singleton.2 (hfield (by decide) rfl ?_)
      exact Token.areJoined_iff.2 (by decide)
  exact ⟨hne, hnormal, rfl, (exists_read_iff_isNormal hne).2 hnormal⟩

end LabPlan.Search
