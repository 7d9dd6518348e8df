import LabPlan.Proofs.Description.References
import LabPlan.Proofs.Description.Rendering

/-! # What can be referred to

A reference is spelled with a dollar sign and one part, or two parts with a dot between them, and
reading it is the inverse of writing it.  What a description declares would be referred to by its
name.  Declared names have no dots in them, but that is not all that a part asks for: the name of a
parameter or a step may be empty, and any name may hold blanks.  Such a name cannot be read back. -/

namespace LabPlan

namespace Reference

variable {s name field : String} {r : Reference}

/-! ## Spelling -/

/-- A text that can be part of a reference: it is not empty, and holds neither dots nor blanks. -/
def IsPart (s : String) : Prop := s ≠ "" ∧ ∀ c ∈ s.toList, c ≠ '.' ∧ Text.isBlank c = false

/-- `Spells s r`: the text is a dollar sign, and after it the parts of the reference. -/
inductive Spells : String → Reference → Prop where
  | bare {name : String} : IsPart name → Spells ("$" ++ name) ⟨name, none⟩
  | field {name field : String} : IsPart name → IsPart field →
    Spells ("$" ++ name ++ "." ++ field) ⟨name, some field⟩

theorem isPart_toList_iff : isPart s.toList = true ↔ IsPart s := by
  rw [isPart_iff, IsPart, ne_eq, String.toList_eq_nil_iff]

instance : DecidablePred IsPart := fun _ ↦ decidable_of_iff _ isPart_toList_iff

theorem text_bare (name : String) : text ⟨name, none⟩ = "$" ++ name := by
  rw [← String.toList_inj]
  simp [text, spelling]

theorem text_field (name field : String) :
    text ⟨name, some field⟩ = "$" ++ name ++ "." ++ field := by
  rw [← String.toList_inj]
  simp [text, spelling]

theorem isWritable_iff :
    r.IsWritable ↔ IsPart r.name ∧ ∀ f, r.field = some f → IsPart f := by
  simp only [IsWritable, isPart_toList_iff]

/-- A text spells a reference if it is the text of one that can be written. -/
theorem spells_iff : Spells s r ↔ r.IsWritable ∧ r.text = s := by
  rw [isWritable_iff]
  constructor
  · intro h
    cases h with
    | bare hname => exact ⟨⟨hname, nofun⟩, text_bare _⟩
    | field hname hfield =>
        refine ⟨⟨hname, fun f hf ↦ ?_⟩, text_field _ _⟩
        rwa [← Option.some.inj hf]
  · obtain ⟨name, field⟩ := r
    rintro ⟨⟨hname, hfield⟩, rfl⟩
    cases field with
    | none =>
        rw [text_bare]
        exact .bare hname
    | some f =>
        rw [text_field]
        exact .field hname (hfield f rfl)

theorem read_eq_reference_iff_spells : read s = .reference r ↔ Spells s r := by
  rw [read_eq_reference_iff, spells_iff]

theorem isSought_iff : isSought s = true ↔ ∃ t, s = "$" ++ t := by
  rw [isSought, beq_iff_eq]
  constructor
  · intro h
    obtain ⟨cs, hcs⟩ := List.head?_eq_some_iff.1 h
    refine ⟨String.ofList cs, ?_⟩
    rw [← String.toList_inj, hcs]
    simp
  · rintro ⟨t, rfl⟩
    simp

/-- A text is left alone if no dollar sign comes first.  It is read as a reference exactly if it
spells that one, and malformed if a dollar sign comes first and it spells none.  What is read is
written as it was, what has parts is read as it was written, and references that are read are told
apart by their texts. -/
theorem read_exact :
    (∀ s, read s = .literal ↔ ¬ ∃ t, s = "$" ++ t) ∧
    (∀ s r, read s = .reference r ↔ Spells s r) ∧
    (∀ s, read s = .malformed ↔ (∃ t, s = "$" ++ t) ∧ ∀ r, ¬ Spells s r) ∧
    (∀ s r, read s = .reference r → r.text = s) ∧
    (∀ r : Reference, IsPart r.name → (∀ f, r.field = some f → IsPart f) →
      read r.text = .reference r) ∧
    (∀ s s' r r', read s = .reference r → read s' = .reference r' → r.text = r'.text →
      r = r') := by
  refine ⟨fun s ↦ ?literal, fun s r ↦ read_eq_reference_iff_spells, fun s ↦ ?malformed,
    fun s r h ↦ (read_eq_reference_iff.1 h).2, fun r hname hfield ↦ ?written, ?injective⟩
  case literal => rw [read_eq_literal_iff, ← isSought_iff, Bool.not_eq_true]
  case malformed =>
    rw [read_eq_malformed_iff, IsMalformed, isSought_iff]
    simp only [spells_iff, not_and, ne_eq]
  case written =>
    exact read_eq_reference_iff.2 ⟨isWritable_iff.2 ⟨hname, hfield⟩, rfl⟩
  case injective =>
    intro s s' r r' h h' htext
    obtain ⟨-, rfl⟩ := read_eq_reference_iff.1 h
    rw [htext, (read_eq_reference_iff.1 h').2, h'] at h
    exact (Reading.reference.inj h).symm

/-- The theorem at a reference with a dollar sign for a name. -/
theorem dollar_read : read "$$.größe" = .reference ⟨"$", some "größe"⟩ ∧
    text ⟨"$", some "größe"⟩ = "$$.größe" ∧ Spells "$$.größe" ⟨"$", some "größe"⟩ := by
  obtain ⟨-, hspells, -, htext, hwritten, -⟩ := read_exact
  have hname : IsPart "$" := by decide
  have hfield : IsPart "größe" := by decide
  have hread : read "$$.größe" = .reference ⟨"$", some "größe"⟩ :=
    hwritten ⟨"$", some "größe"⟩ hname fun f hf ↦ Option.some.inj hf ▸ hfield
  exact ⟨hread, htext _ _ hread, (hspells _ _).1 hread⟩

/-! ## Names without dots -/

/-- The name of the reference is not empty, and neither it nor the field has blanks in it. -/
structure IsUnbroken (r : Reference) : Prop where
  ne_empty : r.name ≠ ""
  name : ∀ c ∈ r.name.toList, Text.isBlank c = false
  field : ∀ f, r.field = some f → ∀ c ∈ f.toList, Text.isBlank c = false

/-- The text is read as the reference if that is unbroken, and it is malformed if not. -/
def ReadsIfUnbroken (s : String) (r : Reference) : Prop :=
  (read s = .reference r ↔ r.IsUnbroken) ∧ (read s = .malformed ↔ ¬ r.IsUnbroken)

theorem IsUnbroken.of_isPart {r : Reference} (hname : IsPart r.name)
    (hfield : ∀ f, r.field = some f → IsPart f) : r.IsUnbroken where
  ne_empty := hname.1
  name c hc := (hname.2 c hc).2
  field f hf c hc := ((hfield f hf).2 c hc).2

theorem isPart_iff_of_isUndotted (hs : IsUndotted s) :
    IsPart s ↔ s ≠ "" ∧ ∀ c ∈ s.toList, Text.isBlank c = false := by
  rw [IsPart]
  refine and_congr_right fun _ ↦ forall₂_congr fun c hc ↦ ?_
  exact and_iff_right (ne_of_mem_of_not_mem hc hs)

theorem IsPart.isUndotted (h : IsPart s) : IsUndotted s := fun hdot ↦ (h.2 '.' hdot).1 rfl

/-- What is after a name without dots, if it begins with one, can be told from the name. -/
theorem append_inj_of_isUndotted {m n : String} {t u : List Char} (hm : IsUndotted m)
    (hn : IsUndotted n) (ht : ∀ c ∈ t.head?, c = '.') (hu : ∀ c ∈ u.head?, c = '.')
    (h : m.toList ++ t = n.toList ++ u) : m = n ∧ t = u := by
  have htake {s : String} {v : List Char} (hs : IsUndotted s) (hv : ∀ c ∈ v.head?, c = '.') :
      (s.toList ++ v).takeWhile (· != '.') = s.toList := by
    rw [List.takeWhile_append_of_pos fun c hc ↦ bne_iff_ne.2 (ne_of_mem_of_not_mem hc hs)]
    cases v with
    | nil => simp
    | cons c cs => simp [hv c rfl]
  have hname : m.toList = n.toList := by rw [← htake hm ht, h, htake hn hu]
  rw [hname] at h
  exact ⟨String.toList_inj.1 hname, List.append_cancel_left h⟩

/-- References whose names have no dots have different texts. -/
theorem eq_of_text_eq {q : Reference} (hq : IsUndotted q.name) (hr : IsUndotted r.name)
    (h : q.text = r.text) : q = r := by
  have htext (r : Reference) : r.text.toList =
      '$' :: (r.name.toList ++ r.field.elim [] fun f ↦ '.' :: f.toList) := by
    obtain ⟨name, field⟩ := r
    cases field <;> simp [text, spelling]
  have hdot (o : Option String) : ∀ c ∈ (o.elim [] fun f ↦ '.' :: f.toList).head?, c = '.' := by
    cases o <;> simp
  rw [← String.toList_inj, htext, htext] at h
  obtain ⟨hname, hfield⟩ :=
    append_inj_of_isUndotted hq hr (hdot _) (hdot _) (List.cons.inj h).2
  obtain ⟨name, field⟩ := q
  obtain ⟨name', field'⟩ := r
  obtain rfl : name = name' := hname
  cases field with
  | none =>
      cases field' with
      | none => rfl
      | some g => cases hfield
  | some f =>
      cases field' with
      | none => cases hfield
      | some g => rw [String.toList_inj.1 (List.cons.inj hfield).2]

/-- Where names have no dots and fields are names, it is only blanks and an empty name in front that
keep a reference from being read. -/
theorem readsIfUnbroken_text (hname : IsUndotted r.name)
    (hfield : ∀ f, r.field = some f → f ≠ "" ∧ IsUndotted f) : ReadsIfUnbroken r.text r := by
  have hwritable : r.IsWritable ↔ r.IsUnbroken := by
    rw [isWritable_iff]
    constructor
    · rintro ⟨hpart, hparts⟩
      exact .of_isPart hpart hparts
    · rintro ⟨hne, hblank, hblanks⟩
      refine ⟨(isPart_iff_of_isUndotted hname).2 ⟨hne, hblank⟩, fun f hf ↦ ?_⟩
      obtain ⟨hf', hdot⟩ := hfield f hf
      exact (isPart_iff_of_isUndotted hdot).2 ⟨hf', hblanks f hf⟩
  have hsought : isSought r.text = true := by
    simp [isSought, text, spelling]
  rw [ReadsIfUnbroken, ← hwritable, read_eq_reference_iff, read_eq_malformed_iff, IsMalformed]
  refine ⟨and_iff_left rfl, ?_⟩
  constructor
  · rintro ⟨-, hne⟩ hr
    exact hne r hr rfl
  · intro hr
    refine ⟨hsought, fun q hq htext ↦ hr ?_⟩
    rwa [← eq_of_text_eq (isWritable_iff.1 hq).1.isUndotted hname htext]

end Reference

namespace Description

variable {v : Value} {d : Description}

/-- The names that a document declares have no dots, and outputs have at least a character. -/
theorem undotted_of_ofValue (h : ofValue v = .ok d) :
    (∀ p ∈ d.parameters, IsUndotted p.name) ∧ (∀ s ∈ d.steps, IsUndotted s.name) ∧
    ∀ t ∈ d.tasks, ∀ o ∈ t.outputs, o ≠ "" ∧ IsUndotted o := by
  refine ⟨(areDeclarable_of_ofValue h).undotted, fun s hs ↦ ?_, fun t ht ↦ ?_⟩
  · obtain ⟨root, rfl, hroot⟩ := ofValue_eq_ok_iff.1 h
    obtain ⟨-, -, ts, gs, -, -, -, hsteps⟩ := Shape.document_eq_pure_iff.1 hroot
    obtain ⟨es, -, -, hes⟩ := Shape.graph_eq_pure_iff.1 hsteps
    obtain ⟨e, -, he⟩ := Checked.exists_of_forall₂ hes hs
    exact (Shape.isWellFormed_of_stepEntry he).2.1
  · obtain ⟨root, rfl, hroot⟩ := ofValue_eq_ok_iff.1 h
    obtain ⟨-, -, ts, gs, -, htasks, -, -⟩ := Shape.document_eq_pure_iff.1 hroot
    obtain ⟨es, -, -, hes⟩ := Shape.tasks_eq_pure_iff.1 htasks
    obtain ⟨e, -, he⟩ := Checked.exists_of_forall₂ hes ht
    exact (Shape.text?_of_taskEntry he).2.outputs

/-- The names of parameters and steps, and the names of steps with outputs of their tasks, are read
as references to them exactly if the name in front is not empty and no blanks are in the way.
Anything else that is declared cannot be referred to: the reference is malformed. -/
theorem declared_readsIfUnbroken (h : ofValue v = .ok d) :
    (∀ p ∈ d.parameters, Reference.ReadsIfUnbroken ("$" ++ p.name) ⟨p.name, none⟩) ∧
    (∀ s ∈ d.steps, Reference.ReadsIfUnbroken ("$" ++ s.name) ⟨s.name, none⟩) ∧
    ∀ s ∈ d.steps, ∀ t ∈ d.tasks, t.name = s.task → ∀ o ∈ t.outputs,
      Reference.ReadsIfUnbroken ("$" ++ s.name ++ "." ++ o) ⟨s.name, some o⟩ := by
  obtain ⟨hparameters, hsteps, houtputs⟩ := undotted_of_ofValue h
  refine ⟨fun p hp ↦ ?_, fun s hs ↦ ?_, fun s hs t ht _ o ho ↦ ?_⟩
  · rw [← Reference.text_bare]
    exact Reference.readsIfUnbroken_text (hparameters p hp) nofun
  · rw [← Reference.text_bare]
    exact Reference.readsIfUnbroken_text (hsteps s hs) nofun
  · rw [← Reference.text_field]
    refine Reference.readsIfUnbroken_text (hsteps s hs) fun f hf ↦ ?_
    rw [← Option.some.inj hf]
    exact houtputs t ht o ho

/-- A document that declares a parameter and a step under the empty name, and another parameter and
an output under names with a space. -/
def unspeakable : Value := .mapping [
  (.string "parameters", .sequence [.string "seed", .string "", .string "learning rate"]),
  (.string "tasks", .mapping [(.string "fit", .mapping [
    (.string "plugin", .string "lab.tasks.fit"),
    (.string "outputs", .sequence [.string "model", .string "best model"])])]),
  (.string "graph", .mapping [
    (.string "train", .mapping [(.string "fit", .string "$seed")]),
    (.string "", .mapping [(.string "fit", .string "$train.model")])])]

/-- What it declares. -/
def unspeakableDescription : Description where
  parameters := [⟨"seed", .null, none⟩, ⟨"", .null, none⟩, ⟨"learning rate", .null, none⟩]
  tasks := [⟨"fit", "lab.tasks.fit", ["model", "best model"]⟩]
  steps := [⟨"train", "fit", [.reference ⟨"seed", none⟩], [], []⟩,
    ⟨"", "fit", [.reference ⟨"train", some "model"⟩], [], []⟩]

theorem ofValue_unspeakable : ofValue unspeakable = .ok unspeakableDescription := by rfl

/-- The theorem at a parameter that can be referred to and at one that cannot, and at an output that
can. -/
theorem unspeakable_readsIfUnbroken : ofValue unspeakable = .ok unspeakableDescription ∧
    Reference.read "$seed" = .reference ⟨"seed", none⟩ ∧
    Reference.read "$learning rate" = .malformed ∧
    Reference.read "$train.model" = .reference ⟨"train", some "model"⟩ := by
  obtain ⟨hparameters, -, houtputs⟩ := declared_readsIfUnbroken ofValue_unspeakable
  obtain ⟨hseed, -⟩ := hparameters ⟨"seed", .null, none⟩ (.head _)
  obtain ⟨-, hrate⟩ := hparameters ⟨"learning rate", .null, none⟩ (.tail _ (.tail _ (.head _)))
  obtain ⟨hmodel, -⟩ := houtputs _ (.head _) _ (.head _) rfl "model" (.head _)
  have hfield : Reference.IsPart "model" := by decide
  refine ⟨ofValue_unspeakable, hseed.2 (.of_isPart (by decide) nofun), hrate.2 fun h ↦ ?_,
    hmodel.2 (.of_isPart (by decide) fun f hf ↦ Option.some.inj hf ▸ hfield)⟩
  exact absurd (h.name ' ' (by decide)) (by decide)

/-- It is accepted, but neither the parameter nor the step without a name can be referred to, nor
the parameter and the output with a space. -/
theorem unspeakable_malformed : ∃ d, ofValue unspeakable = .ok d ∧
    (∃ p ∈ d.parameters, p.name = "" ∧ Reference.read ("$" ++ p.name) = .malformed) ∧
    (∃ p ∈ d.parameters, p.name ≠ "" ∧ Reference.read ("$" ++ p.name) = .malformed) ∧
    (∃ s ∈ d.steps, Reference.read ("$" ++ s.name) = .malformed) ∧
    ∃ s ∈ d.steps, Reference.read ("$" ++ s.name) = .reference ⟨s.name, none⟩ ∧
      ∃ t ∈ d.tasks, t.name = s.task ∧ ∃ o ∈ t.outputs,
        Reference.read ("$" ++ s.name ++ "." ++ o) = .malformed := by
  refine ⟨_, ofValue_unspeakable, ⟨⟨"", .null, none⟩, .tail _ (.head _), rfl, by decide⟩,
    ⟨⟨"learning rate", .null, none⟩, .tail _ (.tail _ (.head _)), by decide, by decide⟩,
    ⟨_, .tail _ (.head _), by decide⟩, _, .head _, by decide, _, .head _, rfl,
    "best model", .tail _ (.head _), by decide⟩

end Description

end LabPlan
