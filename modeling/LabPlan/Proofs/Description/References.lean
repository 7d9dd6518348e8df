import LabPlan.Description.Within
import LabPlan.Proofs.Description.Arguments
import LabPlan.Value.Content

/-! # References in arguments

Reading an argument loses nothing: written back it is the content of its value.  The references in
it are those that stand as texts in the value, in the same order, and a text that only begins like
one is a problem of its own. -/

namespace LabPlan

namespace Reference

/-- The text begins like a reference, and is not the text of any. -/
def IsMalformed (s : String) : Prop := isSought s = true ∧ ∀ r, IsWritable r → r.text ≠ s

theorem read_eq_malformed_iff {s : String} : read s = .malformed ↔ IsMalformed s := by
  have hsought : isSought s = true ↔ read s ≠ .literal := by
    rw [ne_eq, read_eq_literal_iff, Bool.not_eq_false]
  have htext : (∀ r, IsWritable r → r.text ≠ s) ↔ ∀ r, read s ≠ .reference r := by
    simp only [ne_eq, read_eq_reference_iff, not_and]
  rw [IsMalformed, hsought, htext]
  cases read s <;> simp

instance : DecidablePred IsMalformed :=
  fun _ ↦ decidable_of_iff _ read_eq_malformed_iff

/-- The text is that of a reference. -/
def IsText (s : String) : Prop := ∃ r, IsWritable r ∧ r.text = s

theorem isText_iff {s : String} : IsText s ↔ ∃ r, read s = .reference r := by
  simp only [IsText, read_eq_reference_iff]

instance : DecidablePred IsText := fun s ↦
  decidable_of_iff (read s matches .reference _) <| by
    rw [isText_iff]
    cases read s <;> simp

end Reference

namespace Shape

variable {step : String}

/-! ## What is read -/

theorem result_sequence (vs : List Value) : (argument step (.sequence vs)).result =
    .list (vs.map fun v ↦ (argument step v).result) := by
  rw [argument, Checked.result_bind, Checked.result_pure, arguments_eq, Checked.result_forEach]

theorem result_mapping (es : Entries) : (argument step (.mapping es)).result =
    .map (es.map fun e ↦ (e.1, (argument step e.2).result)) := by
  rw [argument, Checked.result_bind, Checked.result_pure, argumentEntries_eq,
    Checked.result_forEach]
  refine congrArg Argument.map (List.map_congr_left fun e _ ↦ ?_)
  rw [argumentEntry, Checked.result_bind, Checked.result_pure]

theorem problems_sequence (vs : List Value) : (argument step (.sequence vs)).problems =
    vs.flatMap fun v ↦ (argument step v).problems := by
  rw [argument, Checked.problems_bind, Checked.problems_pure, List.append_nil, arguments_eq,
    Checked.problems_forEach]

theorem problems_mapping (es : Entries) : (argument step (.mapping es)).problems =
    es.flatMap fun e ↦ (argument step e.2).problems := by
  rw [argument, Checked.problems_bind, Checked.problems_pure, List.append_nil, argumentEntries_eq,
    Checked.problems_forEach]
  refine List.flatMap_congr fun e _ ↦ ?_
  rw [argumentEntry, Checked.problems_bind, Checked.problems_pure, List.append_nil]

/-- A value that is no text and has nothing inside is an argument as it stands. -/
theorem argument_scalar (step : String) {v : Value} (hv : v.isScalar = true)
    (hs : ∀ s, v ≠ .string s) :
    argument step v = pure (.literal v) ∧ v.texts = [] ∧ v.content = v := by
  cases v with
  | string s => exact absurd rfl (hs s)
  | sequence vs => cases hv
  | mapping es => cases hv
  | tagged t v => cases hv
  | _ => exact ⟨rfl, rfl, rfl⟩

theorem problems_string (s : String) : (argument step (.string s)).problems =
    if Reference.IsMalformed s then [.malformedReference step s] else [] := by
  rw [argument]
  cases hr : Reference.read s with
  | malformed =>
      rw [if_pos (Reference.read_eq_malformed_iff.1 hr)]
      rfl
  | literal | reference r =>
      have hm : ¬ Reference.IsMalformed s := by
        rw [← Reference.read_eq_malformed_iff, hr]
        exact Reference.Reading.noConfusion
      rw [if_neg hm]
      rfl

/-- Texts that are malformed as references are problems, one each, and nothing else is. -/
theorem problems_argument (v : Value) : (argument step v).problems =
    (v.texts.filter Reference.IsMalformed).map (.malformedReference step) := by
  induction v using Value.induction with
  | scalar v hv =>
      by_cases hs : ∃ s, v = .string s
      · obtain ⟨s, rfl⟩ := hs
        rw [problems_string, Value.texts_string, List.filter_singleton]
        by_cases hm : Reference.IsMalformed s <;> simp [hm]
      · obtain ⟨ha, ht, -⟩ := argument_scalar step hv (not_exists.1 hs)
        rw [ha, ht]
        rfl
  | sequence vs ih =>
      rw [problems_sequence, Value.texts_sequence, List.filter_flatMap, List.map_flatMap]
      exact List.flatMap_congr ih
  | mapping es ih =>
      rw [problems_mapping, Value.texts_mapping, List.filter_flatMap, List.map_flatMap]
      exact List.flatMap_congr ih
  | tagged t v ih => exact ih

/-- The argument holds what the value holds: it is written as the content of the value, its literals
are untagged scalars, and its references are those whose texts stand in the value, in their
order. -/
structure Holds (a : Argument) (v : Value) : Prop where
  content : a.toValue = v.content
  literals : ∀ w, (Argument.literal w).Within a → w.isScalar = true
  texts : a.references.map Reference.text = v.texts.filter Reference.IsText
  writable : ∀ r ∈ a.references, r.IsWritable

namespace Holds

theorem literal {v : Value} (hv : v.isScalar = true) (hc : v.content = v)
    (ht : v.texts.filter Reference.IsText = []) : Holds (.literal v) v where
  content := hc.symm
  literals := by
    intro w h
    cases h
    exact hv
  texts := ht.symm
  writable := List.forall_mem_nil _

theorem reference {r : Reference} (hr : r.IsWritable) : Holds (.reference r) (.string r.text) where
  content := rfl
  literals := by
    intro w h
    cases h
  texts := by
    have ht : Reference.IsText r.text := ⟨r, hr, rfl⟩
    simp [ht]
  writable := List.forall_mem_singleton.2 hr

theorem list (read : Value → Argument) {vs : List Value} (h : ∀ v ∈ vs, Holds (read v) v) :
    Holds (.list (vs.map read)) (.sequence vs) where
  content := by
    rw [Argument.toValue_list, Value.content_sequence, List.map_map]
    exact congrArg Value.sequence (List.map_congr_left fun v hv ↦ (h v hv).content)
  literals := by
    intro w hw
    cases hw with
    | item hb hw =>
        obtain ⟨v, hv, rfl⟩ := List.mem_map.1 hb
        exact (h v hv).literals w hw
  texts := by
    rw [Argument.references_list, Value.texts_sequence, List.flatMap_map, List.map_flatMap,
      List.filter_flatMap]
    exact List.flatMap_congr fun v hv ↦ (h v hv).texts
  writable := by
    simp only [Argument.references_list, List.flatMap_map, List.forall_mem_flatMap]
    exact fun v hv ↦ (h v hv).writable

theorem map (read : Value → Argument) {es : Entries} (h : ∀ e ∈ es, Holds (read e.2) e.2) :
    Holds (.map (es.map fun e ↦ (e.1, read e.2))) (.mapping es) where
  content := by
    rw [Argument.toValue_map, Value.content_mapping, List.map_map]
    refine congrArg Value.mapping (List.map_congr_left fun e he ↦ ?_)
    exact congrArg (Prod.mk e.1) (h e he).content
  literals := by
    intro w hw
    cases hw with
    | entry hf hw =>
        obtain ⟨e, he, rfl⟩ := List.mem_map.1 hf
        exact (h e he).literals w hw
  texts := by
    rw [Argument.references_map, Value.texts_mapping, List.flatMap_map, List.map_flatMap,
      List.filter_flatMap]
    exact List.flatMap_congr fun e he ↦ (h e he).texts
  writable := by
    simp only [Argument.references_map, List.flatMap_map, List.forall_mem_flatMap]
    exact fun e he ↦ (h e he).writable

end Holds

/-- What a text is read as holds the text. -/
theorem holds_argument_string (s : String) :
    Holds (argument step (.string s)).result (.string s) := by
  rw [argument]
  have htext : Reference.IsText s ↔ ∃ r, Reference.read s = .reference r := Reference.isText_iff
  cases hr : Reference.read s with
  | reference r =>
      obtain ⟨hw, rfl⟩ := Reference.read_eq_reference_iff.1 hr
      exact .reference hw
  | literal | malformed =>
      rw [hr] at htext
      refine .literal rfl rfl ?_
      simp [htext]

theorem holds_argument (step : String) (v : Value) : Holds (argument step v).result v := by
  induction v using Value.induction with
  | scalar v hv =>
      by_cases hs : ∃ s, v = .string s
      · obtain ⟨s, rfl⟩ := hs
        exact holds_argument_string s
      · obtain ⟨ha, ht, hc⟩ := argument_scalar step hv (not_exists.1 hs)
        rw [ha]
        refine .literal hv hc ?_
        rw [ht, List.filter_nil]
  | sequence vs ih =>
      rw [result_sequence]
      exact .list (fun v ↦ (argument step v).result) ih
  | mapping es ih =>
      rw [result_mapping]
      exact .map (fun v ↦ (argument step v).result) ih
  | tagged t v ih => exact ⟨ih.content, ih.literals, ih.texts, ih.writable⟩

/-- Reading an argument reports each text that is malformed as a reference, once for every place
where it stands, and nothing else.  The argument holds what its value holds. -/
theorem argument_holds (step : String) (v : Value) :
    (argument step v).problems.map Problem.report =
      (v.texts.filter Reference.IsMalformed).map (fun s ↦
        .parseAt "S037" ("Malformed reference " ++ Problem.named s) step) ∧
    (argument step v).result.toValue = v.content ∧
    (∀ w, (Argument.literal w).Within (argument step v).result → w.isScalar = true) ∧
    (argument step v).result.references.map Reference.text = v.texts.filter Reference.IsText ∧
    ∀ r ∈ (argument step v).result.references, r.IsWritable := by
  obtain ⟨hcontent, hliterals, htexts, hwritable⟩ := holds_argument step v
  refine ⟨?_, hcontent, hliterals, htexts, hwritable⟩
  rw [problems_argument, List.map_map]
  rfl

end Shape

end LabPlan
