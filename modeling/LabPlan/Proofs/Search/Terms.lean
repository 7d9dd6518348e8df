import LabPlan.Proofs.Search.Joining
import LabPlan.Proofs.Search.Words

/-! # Reading searches

A search is read exactly as the grammar derives it, and what it means does not depend on how it is
derived.  A term stops where no word goes on and none begins after space; it ends where a comma or
the end of the text comes, with space before it or not, and there it stops. -/

namespace LabPlan.Search

/-! ## Where terms end -/

/-- No term goes on with this text: no word begins there, with space before it or without, and what
comes before it is no field's name. -/
structure Stops (cs : List Char) : Prop where
  segment? : segment? cs = none
  segment?_dropWhile : Search.segment? (cs.dropWhile isSpace) = none
  ne_colon (ds : List Char) : cs ≠ ':' :: ds

/-- Bare text stops where a term does. -/
theorem Stops.bareRest {cs : List Char} (h : Stops cs) : bareRest cs = .ok ([], cs) := by
  rw [Search.bareRest, segments_of_none h.segment?, Parsed.andThen_ok,
    moreWords_of_none (.inr h.segment?_dropWhile)]
  rfl

/-- Nothing is left but space, or a comma comes after it. -/
def Ends (cs : List Char) : Prop :=
  ∃ sp ds, cs = sp ++ ds ∧ AreSpaces sp ∧ (ds = [] ∨ ∃ es, ds = ',' :: es)

theorem ends_of_areSpaces {sp : List Char} (hs : AreSpaces sp) : Ends sp :=
  ⟨sp, [], by simp, hs, .inl rfl⟩

theorem ends_comma {sp : List Char} (hs : AreSpaces sp) (cs : List Char) : Ends (sp ++ ',' :: cs) :=
  ⟨sp, ',' :: cs, rfl, hs, .inr ⟨cs, rfl⟩⟩

theorem dropWhile_isSpace_comma {sp : List Char} (hs : AreSpaces sp) (cs : List Char) :
    (sp ++ ',' :: cs).dropWhile isSpace = ',' :: cs := by
  rw [List.dropWhile_append_of_pos hs.isSpace]
  rfl

namespace Ends

variable {cs : List Char}

/-- No word begins where a term ends, with space before it or without. -/
theorem segment?_dropWhile (h : Ends cs) : segment? (cs.dropWhile isSpace) = none := by
  obtain ⟨sp, ds, rfl, hs, rfl | ⟨es, rfl⟩⟩ := h
  · rw [List.append_nil, dropWhile_isSpace_eq_nil_iff.2 hs]
    rfl
  · rw [dropWhile_isSpace_comma hs]
    rfl

theorem segment? (h : Ends cs) : segment? cs = none := by
  obtain ⟨sp, ds, rfl, hs, hds⟩ := h
  cases sp with
  | nil =>
      rcases hds with rfl | ⟨es, rfl⟩
      · rfl
      · rfl
  | cons c sp => exact segment?_eq_none_iff.2 (opensSegment_of_isSpace (hs.isSpace c List.mem_cons_self))

theorem ne_colon (h : Ends cs) (ds : List Char) : cs ≠ ':' :: ds := by
  obtain ⟨sp, es, rfl, hs, hes⟩ := h
  cases sp with
  | nil => rcases hes with rfl | ⟨fs, rfl⟩ <;> simp
  | cons c sp =>
      intro he
      obtain ⟨rfl, -⟩ := List.cons.inj he
      exact absurd (hs ':' List.mem_cons_self) (by decide)

/-- A term stops where it ends. -/
theorem stops (h : Ends cs) : Stops cs := ⟨h.segment?, h.segment?_dropWhile, h.ne_colon⟩

end Ends

/-! ## Fields -/

/-- The characters of a field's name are plain. -/
theorem IsFieldChar.isPlain {c : Char} (h : IsFieldChar c) : IsPlain c := by
  have hcode : (65 ≤ c.toNat ∧ c.toNat ≤ 90) ∨ (97 ≤ c.toNat ∧ c.toNat ≤ 122) ∨ c = '_' := h
  refine ⟨?blank, fun hc ↦ ?special⟩
  case blank =>
    simp only [Text.isBlank, Bool.or_eq_false_iff, Bool.and_eq_false_iff, decide_eq_false_iff_not,
      beq_eq_false_iff_ne]
    rcases hcode with h | h | rfl
    · omega
    · omega
    · decide
  case special =>
    simp only [List.mem_cons, List.not_mem_nil, or_false] at hc
    rcases hc with rfl | rfl | rfl | rfl | rfl | rfl | rfl <;> exact absurd h (by decide)

theorem unquoted_of_fieldChars {name : List Char} (h : ∀ c ∈ name, IsFieldChar c) :
    Unquoted name (name.map Piece.char) := by
  induction name with
  | nil => exact .nil
  | cons c name ih =>
      obtain ⟨hc, hn⟩ := List.forall_mem_cons.1 h
      exact .plain hc.isPlain (ih hn)

/-- A field's name is taken up to its colon. -/
theorem fieldName?_append {name : List Char} (hne : name ≠ [])
    (hn : ∀ c ∈ name, IsFieldChar c) (rest : List Char) :
    fieldName? (name ++ ':' :: rest) = some (String.ofList name, rest) := by
  obtain ⟨c, cs, rfl⟩ := List.exists_cons_of_ne_nil hne
  have hcolon : isFieldChar ':' = false := by decide
  have hn : ∀ d ∈ c :: cs, isFieldChar d = true := fun d hd ↦ isFieldChar_iff.2 (hn d hd)
  rw [fieldName?, List.takeWhile_append_of_pos hn, List.dropWhile_append_of_pos hn,
    List.takeWhile_cons, List.dropWhile_cons, hcolon]
  simp

/-- What is taken as a field's name is one, with a colon after it. -/
theorem exists_field {cs rest : List Char} {field : String}
    (h : fieldName? cs = some (field, rest)) :
    ∃ name, cs = name ++ ':' :: rest ∧ name ≠ [] ∧ (∀ c ∈ name, IsFieldChar c) ∧
      field = String.ofList name := by
  rw [fieldName?] at h
  split at h
  · rename_i c name rest' ht hd
    cases h
    refine ⟨c :: name, ?_, List.cons_ne_nil c name, ?_, rfl⟩
    · rw [← ht, ← hd, List.takeWhile_append_dropWhile]
    · rw [← ht]
      exact fun _ hc ↦ isFieldChar_iff.1 (List.mem_takeWhile_imp hc)
  · cases h

/-- Bare text is not taken for a field: the text after a field's name would begin with its colon. -/
theorem Bare.fieldName?_append {cs : List Char} {ps : List Piece} (h : Bare cs ps)
    {rest : List Char} (he : Stops rest) : fieldName? (cs ++ rest) = none := by
  by_contra hf
  obtain ⟨⟨field, after⟩, hf⟩ := Option.ne_none_iff_exists'.1 hf
  obtain ⟨name, heq, hne, hn, -⟩ := exists_field hf
  have hname : Word name (name.map Piece.char) := .one (.unquoted hne (unquoted_of_fieldChars hn))
  have hcolon : Search.bareRest (':' :: after) = .ok ([], ':' :: after) := by
    rw [Search.bareRest, segments_of_none rfl, Parsed.andThen_ok, moreWords_of_none (.inl rfl)]
    rfl
  -- The same text is read twice: as bare text up to its end, and as the name up to its colon.
  have hread := h.bareRest_append rest
  rw [heq, hname.bareRest_append, hcolon, he.bareRest] at hread
  simp only [Parsed.map_ok, Except.ok.injEq, Prod.mk.injEq] at hread
  exact he.ne_colon after hread.2.symm

/-- The value of a field is a single word, after which the term must stop. -/
theorem fieldValue_append {sp cs rest : List Char} {ps : List Piece} (hs : AreSpaces sp)
    (h : Word cs ps) (he : Stops rest) : fieldValue (sp ++ cs ++ rest) = .ok (ps, rest) := by
  have hopens := h.opens.append rest
  obtain ⟨o, ho⟩ := Option.isSome_iff_exists.1 hopens.isSome_segment?
  have hw : word? (cs ++ rest) = some (.ok (ps, rest)) := by
    rw [word?, ho, Option.map_some, h.segments_append, segments_of_none he.segment?]
    simp
  rw [fieldValue, List.append_assoc, dropWhile_isSpace_append hs hopens, hw]
  simp [he.segment?_dropWhile]

theorem exists_fieldValue {cs rest : List Char} {ps : List Piece}
    (h : fieldValue cs = .ok (ps, rest)) :
    ∃ sp front, cs = sp ++ front ++ rest ∧ AreSpaces sp ∧ Word front ps := by
  have hcs : cs = cs.takeWhile isSpace ++ cs.dropWhile isSpace :=
    (List.takeWhile_append_dropWhile).symm
  rw [fieldValue] at h
  split at h
  · cases h
  · cases h
  · rename_i qs after hw
    have hok : qs = ps ∧ after = rest := by
      split at h
      · simpa using h
      · split at h
        · simpa using h
        · cases h
        · cases h
    obtain ⟨rfl, rfl⟩ := hok
    obtain ⟨front, hfront, hd⟩ := exists_word hw
    refine ⟨_, front, ?_, areSpaces_takeWhile cs, hd⟩
    rw [List.append_assoc, ← hfront]
    exact hcs

/-! ## Terms -/

theorem TermText.opens {cs : List Char} {t : Term} (h : TermText cs t) : Opens cs := by
  cases h with
  | @field name sp cs ps ts hne hn _ _ _ =>
      have hname : Unquoted name (name.map Piece.char) := unquoted_of_fieldChars hn
      exact ((Segment.unquoted hne hname).opens.append _).append _
  | bare h _ => exact h.opens

/-- A derived term is read where a term stops after it. -/
theorem TermText.term?_append {cs rest : List Char} {t : Term} (h : TermText cs t)
    (he : Stops rest) : term? (cs ++ rest) = some (.ok (t, rest)) := by
  cases h with
  | @field name sp cs ps ts hne hn hs h hj =>
      have hname : fieldName? (name ++ ':' :: sp ++ cs ++ rest) =
          some (String.ofList name, sp ++ cs ++ rest) := by
        have := fieldName?_append hne hn (sp ++ cs ++ rest)
        simpa using this
      rw [term?, hname]
      simp only [fieldValue_append hs h he, Parsed.map_ok, Token.joins_iff.1 hj]
  | bare h hj =>
      rw [term?, h.fieldName?_append he]
      simp only
      rw [bare?_of_opens (h.opens.append rest), h.bareRest_append, he.bareRest]
      simp [Token.joins_iff.1 hj]

/-- A term that is read is derived. -/
theorem exists_termText {cs rest : List Char} {t : Term} (h : term? cs = some (.ok (t, rest))) :
    ∃ front, cs = front ++ rest ∧ TermText front t := by
  rw [term?] at h
  split at h
  · rename_i hf
    obtain ⟨ps, hv, rfl⟩ := Parsed.map_eq_ok (Option.some.inj h)
    obtain ⟨name, rfl, hne, hn, rfl⟩ := exists_field hf
    obtain ⟨sp, front, rfl, hs, hw⟩ := exists_fieldValue hv
    exact ⟨name ++ ':' :: sp ++ front, by simp, .field hne hn hs hw (Token.joins_iff.2 rfl)⟩
  · obtain ⟨o, ho, hm⟩ := Option.map_eq_some_iff.1 h
    obtain ⟨ps, rfl, rfl⟩ := Parsed.map_eq_ok hm
    obtain ⟨front, rfl, hb⟩ := exists_bare ho
    exact ⟨front, rfl, .bare hb (Token.joins_iff.2 rfl)⟩

/-! ## Searches -/

theorem separator?_of_areSpaces {sp : List Char} (hs : AreSpaces sp) : separator? sp = none := by
  rw [separator?, dropWhile_isSpace_eq_nil_iff.2 hs]

theorem separator?_comma {sp sp' cs : List Char} (hs : AreSpaces sp) (hs' : AreSpaces sp')
    (h : Opens cs) : separator? (sp ++ ',' :: (sp' ++ cs)) = some cs := by
  rw [separator?, dropWhile_isSpace_comma hs]
  simp only
  rw [dropWhile_isSpace_append hs' h]

theorem exists_separator {cs rest : List Char} (h : separator? cs = some rest) :
    ∃ sp sp', cs = sp ++ ',' :: (sp' ++ rest) ∧ AreSpaces sp ∧ AreSpaces sp' := by
  rw [separator?] at h
  split at h
  · rename_i after hd
    obtain rfl := Option.some.inj h
    refine ⟨_, _, ?_, areSpaces_takeWhile cs, areSpaces_takeWhile after⟩
    rw [List.takeWhile_append_dropWhile, ← hd, List.takeWhile_append_dropWhile]
  · cases h

theorem TermsText.opens {cs : List Char} {ts : List Term} (h : TermsText cs ts) : Opens cs := by
  cases h with
  | one h => exact h.opens
  | more h _ _ _ => exact ((h.opens.append _).append _).append _

theorem moreTerms_of_none {cs : List Char} (hs : separator? cs = none) :
    moreTerms cs = .ok ([], cs) := by
  rw [moreTerms]
  split
  · rfl
  · rename_i he
    cases hs.symm.trans he

theorem moreTerms_of_some {cs start rest : List Char} {t : Term} (hs : separator? cs = some start)
    (ht : term? start = some (.ok (t, rest))) : moreTerms cs = (moreTerms rest).map (t :: ·) := by
  rw [moreTerms]
  split
  · rename_i he
    cases hs.symm.trans he
  · rename_i start' hs'
    obtain rfl := Option.some.inj (hs.symm.trans hs')
    split
    · rename_i he
      cases ht.symm.trans he
    · rename_i he
      cases ht.symm.trans he
    · rename_i he
      cases ht.symm.trans he
      rfl

/-- Terms between commas are read up to where the last one stops, if no comma comes there. -/
theorem TermsText.read {cs : List Char} {ts : List Term} (h : TermsText cs ts) {after : List Char}
    (hstops : Stops after) (hnone : separator? after = none) : ∃ t ts' rest, ts = t :: ts' ∧
      term? (cs ++ after) = some (.ok (t, rest)) ∧ moreTerms rest = .ok (ts', after) := by
  induction h with
  | @one cs t h => exact ⟨t, [], after, rfl, h.term?_append hstops, moreTerms_of_none hnone⟩
  | @more cs sp₁ sp₂ ds t ts h hs hs' hts ih =>
      obtain ⟨u, us, rest, rfl, hterm, hmore⟩ := ih
      refine ⟨t, u :: us, sp₁ ++ ',' :: (sp₂ ++ (ds ++ after)), rfl, ?_, ?_⟩
      · simpa using h.term?_append (ends_comma hs (sp₂ ++ (ds ++ after))).stops
      · rw [moreTerms_of_some (separator?_comma hs hs' (hts.opens.append after)) hterm, hmore]
        rfl

/-- Terms that are read after a term are derived with it. -/
theorem exists_moreTerms {cs rest : List Char} {ts : List Term}
    (h : moreTerms cs = .ok (ts, rest)) :
    ∃ front, cs = front ++ rest ∧ ∀ {w t}, TermText w t → TermsText (w ++ front) (t :: ts) := by
  fun_induction moreTerms cs generalizing ts with
  | case1 =>
      cases h
      exact ⟨[], rfl, fun hw ↦ by simpa using .one hw⟩
  | case2 =>
      cases h
      exact ⟨[], rfl, fun hw ↦ by simpa using .one hw⟩
  | case3 => cases h
  | case4 cs start hs t rest' ht ih =>
      obtain ⟨us, hu, rfl⟩ := Parsed.map_eq_ok h
      obtain ⟨sp, sp', rfl, hsp, hsp'⟩ := exists_separator hs
      obtain ⟨term, rfl, hterm⟩ := exists_termText ht
      obtain ⟨front, rfl, hf⟩ := ih hu
      refine ⟨sp ++ ',' :: sp' ++ (term ++ front), by simp, fun hw ↦ ?_⟩
      have hmore := TermsText.more hw hsp hsp' (hf hterm)
      simpa using hmore

theorem queryText_of_query {cs : List Char} {ts : List Term} (h : query cs = .ok ts) :
    QueryText cs ts := by
  have hcs : cs = cs.takeWhile isSpace ++ cs.dropWhile isSpace :=
    (List.takeWhile_append_dropWhile).symm
  rw [query] at h
  split at h
  · cases h
  · cases h
  · rename_i t rest ht
    split at h
    · cases h
    · rename_i us rest' hu
      split at h
      · rename_i hnil
        cases h
        obtain ⟨term, hterm, hd⟩ := exists_termText ht
        obtain ⟨front, rfl, hf⟩ := exists_moreTerms hu
        rw [hcs, hterm, ← List.append_assoc term, ← List.append_assoc]
        exact .mk (areSpaces_takeWhile cs) (hf hd) (dropWhile_isSpace_eq_nil_iff.1 hnil)
      · cases h

theorem query_of_queryText {cs : List Char} {ts : List Term} (h : QueryText cs ts) :
    query cs = .ok ts := by
  obtain ⟨hs, h, hs'⟩ := h
  obtain ⟨t, us, rest, rfl, hterm, hmore⟩ :=
    h.read (ends_of_areSpaces hs').stops (separator?_of_areSpaces hs')
  rw [query, List.append_assoc, dropWhile_isSpace_append hs (h.opens.append _), hterm]
  simp [hmore, dropWhile_isSpace_eq_nil_iff.2 hs']

/-- A text is read as a search exactly if the grammar derives it, with this meaning. -/
theorem query_eq_ok_iff {cs : List Char} {ts : List Term} : query cs = .ok ts ↔ QueryText cs ts :=
  ⟨queryText_of_query, query_of_queryText⟩

/-- Whatever its derivation, a text means one search. -/
theorem QueryText.unique {cs : List Char} {ts us : List Term} (h : QueryText cs ts)
    (k : QueryText cs us) : ts = us :=
  Except.ok.inj ((query_of_queryText h).symm.trans (query_of_queryText k))

/-! ## Joined values -/

theorem TermText.areJoined {cs : List Char} {t : Term} (h : TermText cs t) :
    Token.AreJoined t.value := by
  cases h with
  | field _ _ _ _ hj => exact hj.joined
  | bare _ hj => exact hj.joined

theorem TermsText.areJoined {cs : List Char} {ts : List Term} (h : TermsText cs ts) :
    ∀ t ∈ ts, Token.AreJoined t.value := by
  induction h with
  | one h => exact List.forall_mem_singleton.2 h.areJoined
  | more h _ _ _ ih => exact List.forall_mem_cons.2 ⟨h.areJoined, ih⟩

theorem QueryText.areJoined {cs : List Char} {ts : List Term} (h : QueryText cs ts) :
    ∀ t ∈ ts, Token.AreJoined t.value := by
  obtain ⟨-, h, -⟩ := h
  exact h.areJoined

/-! ## Texts -/

theorem read_eq_ok_iff_query {text : String} (h : ∃ c ∈ text.toList, Text.isBlank c = false)
    {ts : List Term} : read text = .ok ts ↔ query text.toList = .ok ts := by
  obtain ⟨c, hc, hb⟩ := h
  have hblank : text.toList.all Text.isBlank = false := List.all_eq_false.2 ⟨c, hc, by simp [hb]⟩
  rw [read, hblank]
  cases query text.toList <;> simp [Except.mapError]

/-- A text that is not blank is read as a search exactly if the grammar derives it, and it is read
as what the derivation means.  No two derivations of a text mean different searches, and in the
values literal text is joined as far as possible. -/
theorem read_eq_ok_iff_queryText (text : String) (h : ∃ c ∈ text.toList, Text.isBlank c = false) :
    (∀ ts, read text = .ok ts ↔ QueryText text.toList ts) ∧
      (∀ ts us, QueryText text.toList ts → QueryText text.toList us → ts = us) ∧
      ∀ ts, QueryText text.toList ts → ∀ t ∈ ts, Token.AreJoined t.value := by
  refine ⟨fun ts ↦ ?_, fun ts us h k ↦ h.unique k, fun ts h ↦ h.areJoined⟩
  rw [read_eq_ok_iff_query h, query_eq_ok_iff]

/-- The theorem at a search with a line feed between quotes, a wildcard, an escaped comma and words
with space between them. -/
theorem read_tagAndWords :
    (∃ c ∈ "tag:'cv\\n2'*, deep\\,  res?".toList, Text.isBlank c = false) ∧
    read "tag:'cv\\n2'*, deep\\,  res?" = .ok [⟨some "tag", [.literal "cv\n2", .anyChars]⟩,
      ⟨none, [.literal "deep,  res", .oneChar]⟩] := by
  have hb : ∃ c ∈ "tag:'cv\\n2'*, deep\\,  res?".toList, Text.isBlank c = false :=
    ⟨'t', by decide, rfl⟩
  have hquoted : Quoted '\x27' ['c', 'v', '\\', 'n', '2'] ("cv\n2".toList.map .char) :=
    .plain (by decide) <| .plain (by decide) <| .escape .lineFeed <| .plain (by decide) .nil
  have htag := TermText.field (List.cons_ne_nil 't' ['a', 'g']) (isFieldChar_of_all rfl)
    (List.forall_mem_nil _ : AreSpaces []) (.more (.quoted (.inr rfl) hquoted)
      (.one (.wildcard .anyChars))) (Token.joins_iff.2 rfl)
  have hdeep : Word (['d', 'e', 'e', 'p'] ++ ['\\', ',']) _ :=
    .more (.unquoted (List.cons_ne_nil _ _) (unquoted_of_fieldChars (isFieldChar_of_all rfl)))
      (.one (.unquoted (List.cons_ne_nil _ _) (.escape (.self (by decide)) .nil)))
  have hres : Word (['r', 'e', 's'] ++ ['?']) _ :=
    .more (.unquoted (List.cons_ne_nil _ _) (unquoted_of_fieldChars (isFieldChar_of_all rfl)))
      (.one (.wildcard .oneChar))
  have hspace : AreSpaces [' '] ∧ AreSpaces [' ', ' '] := by simp [AreSpaces, IsSpace]
  have hwords := TermText.bare (.more hdeep (List.cons_ne_nil _ _) hspace.2 (.one hres))
    (Token.joins_iff.2 rfl)
  have hterms := TermsText.more htag (List.forall_mem_nil _) hspace.1 (.one hwords)
  have hquery := QueryText.mk (List.forall_mem_nil _) hterms (List.forall_mem_nil _)
  exact ⟨hb, ((read_eq_ok_iff_queryText _ hb).1 _).2 hquery⟩

end LabPlan.Search
