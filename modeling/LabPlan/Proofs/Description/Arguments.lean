import LabPlan.Description.Render
import LabPlan.Description.Shape
import LabPlan.Proofs.Description.Checked
import LabPlan.Proofs.Entries
import LabPlan.Proofs.Reference

/-! # Arguments

An argument that is read without problems is well formed, and a well-formed argument is read from
the value as which it is written.  Keyword arguments are read one for each entry. -/

namespace LabPlan.Shape

variable {step : String}

/-! ## Readings taken apart -/

/-- A text without problems is a literal or a reference. -/
theorem argument_string_eq_pure_iff {s : String} {a : Argument} :
    argument step (.string s) = pure a ↔
      (Reference.read s = .literal ∧ a = .literal (.string s)) ∨
      ∃ r, Reference.read s = .reference r ∧ a = .reference r := by
  rw [argument]
  cases Reference.read s with
  | literal => simp [Checked.pure_inj, eq_comm]
  | malformed => exact iff_of_false Checked.note_bind_ne_pure (by simp)
  | reference r => simp [Checked.pure_inj, eq_comm]

theorem arguments_eq (vs : List Value) :
    arguments step vs = Checked.forEach (argument step) vs := by
  induction vs with
  | nil => rfl
  | cons v vs ih => rw [arguments, ih, Checked.forEach]

theorem argumentEntries_eq (es : Entries) :
    argumentEntries step es = Checked.forEach (argumentEntry step) es := by
  induction es with
  | nil => rfl
  | cons e es ih => rw [argumentEntries, ih, Checked.forEach]

theorem arguments_eq_pure_iff {vs : List Value} {as : List Argument} :
    arguments step vs = pure as ↔ List.Forall₂ (fun v a ↦ argument step v = pure a) vs as := by
  rw [arguments_eq, Checked.forEach_eq_pure_iff]

theorem argumentEntry_eq_pure_iff {e : Value × Value} {f : Value × Argument} :
    argumentEntry step e = pure f ↔ e.1 = f.1 ∧ argument step e.2 = pure f.2 := by
  obtain ⟨k, v⟩ := e
  obtain ⟨l, a⟩ := f
  simp only [argumentEntry, Checked.bind_eq_pure_iff, Checked.pure_inj, Prod.mk.injEq]
  constructor
  · rintro ⟨a, ha, rfl, rfl⟩
    exact ⟨rfl, ha⟩
  · rintro ⟨rfl, ha⟩
    exact ⟨a, ha, rfl, rfl⟩

theorem argument_sequence_eq_pure_iff {vs : List Value} {a : Argument} :
    argument step (.sequence vs) = pure a ↔
      ∃ as, a = .list as ∧ List.Forall₂ (fun v a ↦ argument step v = pure a) vs as := by
  simp only [argument, Checked.bind_eq_pure_iff, arguments_eq_pure_iff, Checked.pure_inj]
  exact exists_congr fun as ↦ and_comm.trans (and_congr_left fun _ ↦ eq_comm)

/-- A mapping is read as a map with the same keys. -/
theorem argument_mapping_eq_pure_iff {es : Entries} {a : Argument} :
    argument step (.mapping es) = pure a ↔
      ∃ fs, a = .map fs ∧
        List.Forall₂ (fun e f ↦ e.1 = f.1 ∧ argument step e.2 = pure f.2) es fs := by
  simp only [argument, Checked.bind_eq_pure_iff, argumentEntries_eq, Checked.forEach_eq_pure_iff,
    argumentEntry_eq_pure_iff, Checked.pure_inj]
  exact exists_congr fun as ↦ and_comm.trans (and_congr_left fun _ ↦ eq_comm)

/-- Keyword arguments without problems: every entry has a text as its key. -/
theorem keywords_eq_pure_iff {es : Entries} {o : Option (List (String × Argument))} :
    keywords step es = pure o ↔ ∃ ks, o = some ks ∧
      List.Forall₂ (fun e k ↦ e.1.text? = some k.1 ∧ argument step e.2 = pure k.2) es ks := by
  induction es generalizing o with
  | nil =>
      simp only [keywords, Checked.pure_inj, List.forall₂_nil_left_iff, exists_eq_right]
      exact eq_comm
  | cons e es ih =>
      obtain ⟨k, v⟩ := e
      rw [keywords]
      cases hk : k.text? with
      | none =>
          refine iff_of_false Checked.reject_ne_pure ?_
          rintro ⟨ks, -, h⟩
          cases h with
          | cons he _ => simp [hk] at he
      | some name =>
          simp only [Checked.bind_eq_pure_iff, ih]
          constructor
          · rintro ⟨a, ha, o', ⟨ks, rfl, hks⟩, ho⟩
            exact ⟨(name, a) :: ks, (Checked.pure_inj.1 ho).symm, .cons ⟨hk, ha⟩ hks⟩
          · rintro ⟨ks, rfl, h⟩
            cases h with
            | @cons _ l _ ks he hks =>
                obtain ⟨hl, ha⟩ := he
                obtain rfl := Option.some.inj (hk.symm.trans hl)
                exact ⟨l.2, ha, some ks, ⟨ks, rfl, hks⟩, rfl⟩

/-! ## What is read is well formed -/

/-- An argument that is read without problems is well formed. -/
theorem isWellFormed_of_argument {v : Value} (hv : v.HasPlainKeys) {a : Argument}
    (h : argument step v = pure a) : a.IsWellFormed := by
  induction v using Value.induction generalizing a with
  | scalar v hs =>
      cases v with
      | string s =>
          rcases argument_string_eq_pure_iff.1 h with ⟨hs, rfl⟩ | ⟨r, hr, rfl⟩
          · refine .literal rfl fun t ht ↦ ?_
            obtain rfl := Value.string.inj ht
            exact Reference.read_eq_literal_iff.1 hs
          · exact .reference (Reference.read_eq_reference_iff.1 hr).1
      | sequence vs => cases hs
      | mapping es => cases hs
      | tagged t v => cases hs
      | _ =>
          obtain rfl := Checked.pure_inj.1 h
          exact .literal rfl fun t ht ↦ by cases ht
  | sequence vs ih =>
      obtain ⟨as, rfl, has⟩ := argument_sequence_eq_pure_iff.1 h
      refine .list fun a ha ↦ ?_
      obtain ⟨v, hvs, hva⟩ := Checked.exists_of_forall₂ has ha
      exact ih v hvs (hv.item hvs) hva
  | mapping es ih =>
      obtain ⟨fs, rfl, hfs⟩ := argument_mapping_eq_pure_iff.1 h
      refine .map ?_ fun f hf ↦ ?_
      · have hkeys : es.map Prod.fst = fs.map Prod.fst := by
          rw [← List.forall₂_eq_eq_eq, List.forall₂_map_left_iff, List.forall₂_map_right_iff]
          exact hfs.imp fun _ _ hef ↦ hef.1
        have hd : (es.map Prod.fst).Pairwise fun k l ↦ k.same l = false :=
          List.pairwise_map.2 hv.distinct_entries
        rw [hkeys] at hd
        exact List.pairwise_map.1 hd
      · obtain ⟨e, he, -, hef⟩ := Checked.exists_of_forall₂ hfs hf
        exact ih e he (hv.value he) hef
  | tagged t v ih => exact ih hv.content h

theorem isWellFormed_of_arguments {vs : List Value} (hvs : ∀ v ∈ vs, v.HasPlainKeys)
    {as : List Argument} (h : arguments step vs = pure as) : ∀ a ∈ as, a.IsWellFormed := by
  intro a ha
  obtain ⟨v, hv, hva⟩ := Checked.exists_of_forall₂ (arguments_eq_pure_iff.1 h) ha
  exact isWellFormed_of_argument (hvs v hv) hva

/-- Keyword arguments read from a mapping have distinct names and are well formed. -/
theorem isWellFormed_of_keywords {es : Entries} (hes : (Value.mapping es).HasPlainKeys)
    {ks : List (String × Argument)} (h : keywords step es = pure (some ks)) :
    (ks.map Prod.fst).Nodup ∧ ∀ k ∈ ks, k.2.IsWellFormed := by
  obtain ⟨ks, hk, hks⟩ := keywords_eq_pure_iff.1 h
  obtain rfl := Option.some.inj hk
  refine ⟨hes.nodup (hks.imp fun _ _ hek ↦ hek.1), fun k hk ↦ ?_⟩
  obtain ⟨e, he, -, hek⟩ := Checked.exists_of_forall₂ hks hk
  exact isWellFormed_of_argument (hes.value he) hek

/-! ## What is well formed is read -/

/-- A well-formed argument is read from what it is written as. -/
theorem argument_toValue {a : Argument} (h : a.IsWellFormed) :
    argument step a.toValue = pure a := by
  induction h with
  | @literal v hv hs =>
      cases v with
      | string s =>
          refine argument_string_eq_pure_iff.2 (.inl ⟨?_, rfl⟩)
          exact Reference.read_eq_literal_iff.2 (hs s rfl)
      | sequence vs => cases hv
      | mapping es => cases hv
      | tagged t v => cases hv
      | _ => rfl
  | @reference r hr =>
      refine argument_string_eq_pure_iff.2 (.inr ⟨r, ?_, rfl⟩)
      exact Reference.read_eq_reference_iff.2 ⟨hr, rfl⟩
  | @list as _ ih =>
      rw [Argument.toValue_list]
      refine argument_sequence_eq_pure_iff.2 ⟨as, rfl, ?_⟩
      exact List.forall₂_map_left_iff.2 (List.forall₂_same.2 ih)
  | @map es _ _ ih =>
      rw [Argument.toValue_map]
      refine argument_mapping_eq_pure_iff.2 ⟨es, rfl, ?_⟩
      exact List.forall₂_map_left_iff.2 (List.forall₂_same.2 fun e he ↦ ⟨rfl, ih e he⟩)

theorem arguments_toValue {as : List Argument} (h : ∀ a ∈ as, a.IsWellFormed) :
    arguments step (as.map Argument.toValue) = pure as := by
  rw [arguments_eq_pure_iff, List.forall₂_map_left_iff, List.forall₂_same]
  exact fun a ha ↦ argument_toValue (h a ha)

/-- Well-formed keyword arguments are read from what they are written as. -/
theorem keywords_toValue {ks : List (String × Argument)} (h : ∀ k ∈ ks, k.2.IsWellFormed) :
    keywords step (ks.map fun k ↦ (.string k.1, k.2.toValue)) = pure (some ks) := by
  refine keywords_eq_pure_iff.2 ⟨ks, rfl, ?_⟩
  rw [List.forall₂_map_left_iff, List.forall₂_same]
  exact fun k hk ↦ ⟨rfl, argument_toValue (h k hk)⟩

end LabPlan.Shape
