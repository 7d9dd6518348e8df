import LabPlan.Proofs.Search.Like
import LabPlan.Proofs.Search.Terms

/-! # A search finds what its text means

The filter that is made of a search text holds of a row exactly if every term of the search finds
it.  There is no filter only if the text is no search, or if it names a field that stands for no
column. -/

namespace LabPlan.Search

namespace Fields

variable {cols : Columns} {row : Row}

/-! ## Fields that stand for columns -/

/-- The filter that a pattern makes of a column. -/
def columnFilter (column pattern : String) : Filter := .like column pattern likeEscape

theorem fields_foldl_addColumn (fs : Fields) :
    (cols.foldl (fun fs c ↦ fs.addColumn c.1 c.2) fs).fields =
      fs.fields ++ cols.map fun c ↦ (c.1, columnFilter c.2) := by
  induction cols generalizing fs with
  | nil => simp
  | cons c cols ih =>
      rw [List.foldl_cons, ih, List.map_cons, addColumn, add, List.append_assoc]
      rfl

theorem fields_ofColumns : (ofColumns cols).fields = cols.map fun c ↦ (c.1, columnFilter c.2) :=
  fields_foldl_addColumn empty

/-- A name stands for the column that is listed first under it. -/
theorem find?_ofColumns (name : String) :
    (ofColumns cols).find? name = (cols.lookup name).map columnFilter := by
  rw [find?, fields_ofColumns]
  induction cols with
  | nil => rfl
  | cons c cols ih =>
      obtain ⟨n, column⟩ := c
      rw [List.map_cons, List.find?_cons, List.lookup_cons]
      by_cases h : n = name
      · subst h
        simp
      · have hn : (n == name) = false ∧ (name == n) = false := by simp [h, Ne.symm h]
        simp only [hn.1, hn.2]
        exact ih

/-- A name stands for no column if none is listed under it. -/
theorem lookup_eq_none_iff {name : String} :
    cols.lookup name = none ↔ name ∉ cols.map Prod.fst := by
  rw [List.lookup_eq_none_iff, List.mem_map]
  constructor
  · rintro h ⟨c, hc, rfl⟩
    simpa using h c hc
  · intro h c hc
    have hne : name ≠ c.1 := fun he ↦ h ⟨c, hc, he.symm⟩
    simpa using hne

/-- The filter of a column holds of the rows whose value there the pattern matches. -/
theorem holds_columnFilter_iff {column pattern : String} :
    (columnFilter column pattern).holds row = true ↔
      ∃ value, row column = some value ∧ Like.isMatch pattern likeEscape value = true := by
  rw [columnFilter, Filter.holds]
  cases row column <;> simp

/-! ## Filters of terms -/

/-- A term whose field stands for a column finds what its filter holds of. -/
theorem holds_field_iff {name column : String} (h : cols.lookup name = some column)
    (value : List Token) : (columnFilter column (likePattern value false)).holds row = true ↔
      Term.Finds cols row ⟨some name, value⟩ := by
  rw [holds_columnFilter_iff]
  simp only [isMatch_likePattern_iff, Term.Finds, h, Option.some.injEq, exists_eq_left', Term.Fits]

/-- Bare text finds what its filter holds of. -/
theorem holds_bare_iff (value : List Token) :
    (Filter.or ((ofColumns cols).fields.map fun f ↦ f.2 (likePattern value true))).holds row =
      true ↔ Term.Finds cols row ⟨none, value⟩ := by
  rw [Filter.holds, Filter.holdsAny_eq, fields_ofColumns, List.map_map, List.any_map,
    List.any_eq_true]
  simp only [Function.comp_apply, holds_columnFilter_iff, isMatch_likePattern_anywhere_iff,
    Term.Finds, Term.Fits]

/-- A term has a filter, which holds of the rows that it finds, unless it is stray. -/
theorem termFilter_ofColumns (cols : Columns) (t : Term) :
    (t.IsStray cols ∧ ∃ name, (ofColumns cols).termFilter t = .error name) ∨
      (¬ t.IsStray cols ∧ ∃ f, (ofColumns cols).termFilter t = .ok f ∧
        ∀ row, f.holds row = true ↔ t.Finds cols row) := by
  obtain ⟨field, value⟩ := t
  cases field with
  | none =>
      refine .inr ⟨?_, _, rfl, fun row ↦ holds_bare_iff value⟩
      rintro ⟨name, h, -⟩
      cases h
  | some name =>
      cases h : cols.lookup name with
      | none =>
          refine .inl ⟨⟨name, rfl, lookup_eq_none_iff.1 h⟩, name, ?_⟩
          simp only [termFilter, find?_ofColumns, h, Option.map_none]
      | some column =>
          refine .inr ⟨?_, columnFilter column (likePattern value false), ?_,
            fun row ↦ holds_field_iff h value⟩
          · rintro ⟨name', hn, hnot⟩
            obtain rfl := Option.some.inj hn
            rw [lookup_eq_none_iff.2 hnot] at h
            cases h
          · simp only [termFilter, find?_ofColumns, h, Option.map_some]

/-- Terms have filters, which hold together of the rows that all terms find, unless one is stray. -/
theorem termFilters_ofColumns (cols : Columns) (ts : List Term) :
    ((∃ t ∈ ts, t.IsStray cols) ∧ ∃ name, (ofColumns cols).termFilters ts = .error name) ∨
      ((∀ t ∈ ts, ¬ t.IsStray cols) ∧ ∃ fs, (ofColumns cols).termFilters ts = .ok fs ∧
        ∀ row, (∀ f ∈ fs, f.holds row = true) ↔ ∀ t ∈ ts, t.Finds cols row) := by
  induction ts with
  | nil => exact .inr ⟨List.forall_mem_nil _, [], rfl, fun row ↦ by simp⟩
  | cons t ts ih =>
      rw [termFilters]
      rcases termFilter_ofColumns cols t with ⟨hs, name, ht⟩ | ⟨hs, f, ht, hf⟩
      · rw [ht]
        exact .inl ⟨⟨t, List.mem_cons_self, hs⟩, name, rfl⟩
      · rw [ht]
        rcases ih with ⟨⟨u, hu, hstray⟩, name, hts⟩ | ⟨hall, fs, hts, hfs⟩
        · rw [hts]
          exact .inl ⟨⟨u, List.mem_cons_of_mem _ hu, hstray⟩, name, rfl⟩
        · rw [hts]
          refine .inr ⟨List.forall_mem_cons.2 ⟨hs, hall⟩, f :: fs, rfl, fun row ↦ ?_⟩
          rw [List.forall_mem_cons, List.forall_mem_cons, hf, hfs]

/-! ## Filters of searches -/

/-- A search text has no filter exactly if it cannot be read or has a stray term, and a filter holds
of exactly the rows that every term of the text finds. -/
theorem filterOf_ofColumns (cols : Columns) (text : String) :
    ((∃ e, (ofColumns cols).filterOf text = .error e) ↔ (∃ e, read text = .error e) ∨
      ∃ ts, read text = .ok ts ∧ ∃ t ∈ ts, t.IsStray cols) ∧
    ∀ f, (ofColumns cols).filterOf text = .ok f → ∃ ts, read text = .ok ts ∧
      ∀ row, f.holds row = true ↔ ∀ t ∈ ts, t.Finds cols row := by
  rw [filterOf]
  cases read text with
  | error e => simp
  | ok ts =>
      simp only [reduceCtorEq, exists_false, false_or, Except.ok.injEq, exists_eq_left']
      rcases termFilters_ofColumns cols ts with ⟨hs, name, he⟩ | ⟨hall, fs, he, hfs⟩
      · rw [he]
        exact ⟨iff_of_true ⟨_, rfl⟩ hs, fun f hf ↦ by cases hf⟩
      · rw [he]
        refine ⟨iff_of_false ?_ ?_, ?_⟩
        · rintro ⟨e, h⟩
          cases h
        · rintro ⟨t, ht, hs⟩
          exact hall t ht hs
        · rintro f hf row
          obtain rfl := Except.ok.inj hf
          rw [Filter.holds, Filter.holdsAll_eq, List.all_eq_true]
          exact hfs row

/-- The theorem at a search for a percent sign, which stands for itself in a search. -/
theorem filterOf_percent :
    (ofColumns [("tag", "label")]).filterOf "tag:5%*" = .ok (.and [.like "label" "5/%%" '/']) ∧
      ∃ ts, read "tag:5%*" = .ok ts ∧
        ∀ row, (Filter.and [.like "label" "5/%%" '/']).holds row = true ↔
          ∀ t ∈ ts, t.Finds [("tag", "label")] row := by
  have hword : Word (['5', '%'] ++ ['*']) [.char '5', .char '%', .anyChars] :=
    .more (.unquoted (List.cons_ne_nil _ _)
      (.plain (isUnquoted_iff.1 rfl) (.plain (isUnquoted_iff.1 rfl) .nil)))
      (.one (.wildcard .anyChars))
  have hterm := TermText.field (List.cons_ne_nil 't' ['a', 'g']) (isFieldChar_of_all rfl)
    (List.forall_mem_nil _ : AreSpaces []) hword (Token.joins_iff.2 rfl)
  have hquery := QueryText.mk (List.forall_mem_nil _) (.one hterm) (List.forall_mem_nil _)
  have hread : read "tag:5%*" = .ok [⟨some "tag", [.literal "5%", .anyChars]⟩] :=
    (read_eq_ok_iff_query ⟨'t', by decide, rfl⟩).2 (query_of_queryText hquery)
  have hfilter : (ofColumns [("tag", "label")]).filterOf "tag:5%*" =
      .ok (.and [.like "label" "5/%%" '/']) := by
    rw [filterOf, hread]
    rfl
  exact ⟨hfilter, (filterOf_ofColumns _ _).2 _ hfilter⟩

end Fields

end LabPlan.Search
