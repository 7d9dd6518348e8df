import LabPlan.Proofs.Description.Names
import LabPlan.Proofs.Description.Order

/-! # Known keys

A key is recognised by its text, which looks through tags, while a value is looked up under the
plain key.  So an entry whose key has no tag is read, and one whose key has a tag is passed over: it
is taken for known and has no effect at all.  Both hold at every level of a document and of a type
definition. -/

namespace LabPlan

namespace Entries

variable {es : Entries} {name : String}

/-- The entries without those whose key reads as one of the names but has a tag. -/
def withoutTagged (names : List String) (es : Entries) : Entries :=
  es.filter fun e ↦ !(e.1.isTagged && Shape.readsAs names e.1)

/-- The entries with other values, each by its key. -/
def mapValues (f : Value → Value → Value) (es : Entries) : Entries :=
  es.map fun e ↦ (e.1, f e.1 e.2)

/-- Nothing is looked up under a key with a tag. -/
theorem lookup_withoutTagged (names : List String) (name : String) (es : Entries) :
    lookup name (es.withoutTagged names) = lookup name es := lookup_filter (fun _ ↦ rfl) es

theorem keys_mapValues (f : Value → Value → Value) (es : Entries) :
    keys (es.mapValues f) = keys es := by
  rw [keys, mapValues, List.map_map]
  rfl

theorem lookup_mapValues (f : Value → Value → Value) (name : String) (es : Entries) :
    lookup name (es.mapValues f) = (lookup name es).map (f (.string name)) := by
  induction es with
  | nil => rfl
  | cons e es ih =>
      obtain ⟨k, v⟩ := e
      rw [mapValues, List.map_cons, lookup_cons, lookup_cons]
      split
      · rename_i hk
        obtain rfl := Value.isKey_iff.1 hk
        rfl
      · exact ih

/-- The values are what they were made from, up to what the change keeps. -/
theorem paired_mapValues {S : Value → Value → Value → Prop} {f : Value → Value → Value}
    (h : ∀ k v, S k (f k v) v) (es : Entries) : Paired S (es.mapValues f) es :=
  List.forall₂_map_left_iff.2 (List.forall₂_same.2 fun e _ ↦ ⟨rfl, h e.1 e.2⟩)

/-- An entry that is left out has a known key. -/
theorem filter_withoutTagged (names : List String) (es : Entries) :
    (es.withoutTagged names).filter (fun e ↦ !Shape.readsAs names e.1) =
      es.filter fun e ↦ !Shape.readsAs names e.1 := by
  rw [withoutTagged, List.filter_filter]
  refine List.filter_congr fun e _ ↦ ?_
  cases Shape.readsAs names e.1 <;> simp

end Entries

namespace Value

/-- The value with its entries changed, if it is a mapping. -/
def mapEntries (f : Entries → Entries) : Value → Value
  | mapping es => mapping (f es)
  | v => v

/-- What stands under the keys of a value has distinct keys if the value has. -/
theorem KeysDistinct.ownEntry {v : Value} (h : v.KeysDistinct) {e : Value × Value}
    (he : e ∈ v.ownEntries) : e.2.KeysDistinct := by
  cases v with
  | mapping es => exact Everywhere.within h (.value he (.refl _))
  | _ => exact absurd he List.not_mem_nil

end Value

namespace Shape

variable {declared : List String} {name : String}

/-! ## Entries of sections -/

theorem unknownKeys_eq (known : List String) (es : Entries) :
    unknownKeys known es = Entries.keys (es.filter fun e ↦ !readsAs known e.1) := by
  rw [unknownKeys, Entries.keys, List.filter_map]
  rfl

theorem unknownKeys_withoutTagged (known : List String) (es : Entries) :
    unknownKeys known (es.withoutTagged known) = unknownKeys known es := by
  rw [unknownKeys_eq, unknownKeys_eq, Entries.filter_withoutTagged]

/-- The names by which the keys of a step are known, in the form that it has. -/
def knownStepKeys (declared : List String) (spec : Entries) : List String :=
  if isExpanded declared spec then stepKeys else ["dependencies"]

theorem parameter_withoutTagged (name : String) (v : Value) :
    parameter name (v.mapEntries (Entries.withoutTagged parameterKeys)) = parameter name v := by
  cases v with
  | mapping spec =>
      have hunknown :
          ((Entries.withoutTagged parameterKeys spec).keys.find? fun k ↦ !readsAs parameterKeys k) =
            (Entries.keys spec).find? fun k ↦ !readsAs parameterKeys k := by
        rw [← List.head?_filter, ← List.head?_filter]
        exact congrArg List.head? (unknownKeys_withoutTagged parameterKeys spec)
      simp only [Value.mapEntries, parameter, parameterType, hunknown,
        Entries.lookup_withoutTagged]
  | _ => rfl

theorem task_withoutTagged (name : String) (v : Value) :
    task name (v.mapEntries (Entries.withoutTagged taskKeys)) = task name v := by
  cases v with
  | mapping spec =>
      have hunknown := unknownKeys_withoutTagged taskKeys spec
      rw [unknownKeys, unknownKeys] at hunknown
      simp only [Value.mapEntries, task, hunknown, Entries.lookup_withoutTagged]
  | _ => rfl

theorem step_withoutTagged (declared : List String) (name : String) (v : Value) :
    step declared name
        (v.mapEntries fun spec ↦ spec.withoutTagged (knownStepKeys declared spec)) =
      step declared name v := by
  cases v with
  | mapping spec =>
      -- What is left out is never looked up, so the form of the step is the same.
      have hform (names : List String) :
          isExpanded declared (Entries.withoutTagged names spec) = isExpanded declared spec := by
        rw [isExpanded, isExpanded, Entries.lookup_withoutTagged]
      have hparts :
          stepParts declared name (Entries.withoutTagged (knownStepKeys declared spec) spec) =
            stepParts declared name spec := by
        rw [stepParts, stepParts, hform, Entries.lookup_withoutTagged, knownStepKeys]
        cases isExpanded declared spec with
        | true =>
            have hunknown := unknownKeys_withoutTagged stepKeys spec
            rw [unknownKeys, unknownKeys] at hunknown
            simp only [if_true, expanded, hunknown, Entries.lookup_withoutTagged]
        | false =>
            simp only [Bool.false_eq_true, if_false, shorthand, Entries.filter_withoutTagged]
      simp only [Value.mapEntries, step, hparts]
  | _ => rfl

/-! ## Sections -/

/-- Parameters of the same names that are read alike. -/
theorem parameterEntries_congr {seen : List String} {es fs : Entries}
    (h : Entries.Paired (fun _ v w ↦ ∀ name, parameter name v = parameter name w) es fs) :
    parameterEntries seen es = parameterEntries seen fs := by
  induction h generalizing seen with
  | nil => rfl
  | @cons e f es fs hef _ ih =>
      obtain ⟨k, v⟩ := e
      obtain ⟨l, w⟩ := f
      obtain ⟨rfl, hvw⟩ := hef
      simp only [parameterEntries, ih, show ∀ name, parameter name v = parameter name w from hvw]

theorem taskEntry_congr {v w : Value} (h : ∀ name, task name v = task name w) (k : Value) :
    taskEntry (k, v) = taskEntry (k, w) := by
  rw [taskEntry, taskEntry]
  cases k.text? with
  | none => rfl
  | some name => exact h name

theorem stepEntry_congr {v w : Value}
    (h : ∀ name, step declared name v = step declared name w) (k : Value) :
    stepEntry declared (k, v) = stepEntry declared (k, w) := by
  rw [stepEntry, stepEntry]
  cases k.text? with
  | none => rfl
  | some name => simp only [h]

/-- A section whose entries are read alike. -/
theorem ReadsSection.congr {α : Type} {read : Value → Checked (List α)}
    {entry : Value × Value → Checked (Option α)} {p : Problem} (hread : ReadsSection read entry p)
    {es fs : Entries} (h : Entries.Paired (fun k v w ↦ entry (k, v) = entry (k, w)) es fs) :
    read (.mapping es) = read (.mapping fs) := by
  have hforEach : Checked.forEach entry es = Checked.forEach entry fs := by
    induction h with
    | nil => rfl
    | @cons e f es fs hef _ ih =>
        obtain ⟨k, v⟩ := e
        obtain ⟨l, w⟩ := f
        obtain ⟨rfl, hvw⟩ := hef
        rw [Checked.forEach, Checked.forEach, ih]
        exact congrArg (· >>= _) hvw
  cases h with
  | nil => rfl
  | cons _ _ => rw [hread.entries, hread.entries, hforEach]

/-- The names by which the keys of an entry of a section are known. -/
def knownKeys (declared : List String) (name : String) (spec : Entries) : List String :=
  match name with
  | "parameters" => parameterKeys
  | "tasks" => taskKeys
  | "graph" => knownStepKeys declared spec
  | _ => []

/-- A section without the tagged ones among the known keys of its entries. -/
def sectionWithoutTagged (declared : List String) (name : String) (v : Value) : Value :=
  v.mapEntries (Entries.mapValues fun _ w ↦ w.mapEntries fun spec ↦
    spec.withoutTagged (knownKeys declared name spec))

theorem parameters_withoutTagged (v : Value) :
    parameters (sectionWithoutTagged declared "parameters" v) = parameters v := by
  cases v with
  | mapping es =>
      exact parameterEntries_congr (Entries.paired_mapValues
        (fun _ v name ↦ parameter_withoutTagged name v) es)
  | _ => rfl

theorem tasks_withoutTagged (v : Value) :
    tasks (sectionWithoutTagged declared "tasks" v) = tasks v := by
  cases v with
  | mapping es =>
      refine readsSection_tasks.congr (Entries.paired_mapValues (fun k v ↦ ?_) es)
      exact taskEntry_congr (fun name ↦ task_withoutTagged name v) k
  | _ => rfl

theorem graph_withoutTagged (v : Value) :
    graph declared (sectionWithoutTagged declared "graph" v) = graph declared v := by
  cases v with
  | mapping es =>
      refine readsSection_graph.congr (Entries.paired_mapValues (fun k v ↦ ?_) es)
      exact stepEntry_congr (fun name ↦ step_withoutTagged declared name v) k
  | _ => rfl

/-! ## Documents -/

/-- The document without the tagged ones among its known keys, at every level. -/
def withoutTaggedKeys (root : Entries) : Entries :=
  (root.withoutTagged sections).mapValues fun key v ↦
    match key with
    | .string name => sectionWithoutTagged (declaredTasks root) name v
    | _ => v

theorem lookup_withoutTaggedKeys (name : String) (root : Entries) :
    Entries.lookup name (withoutTaggedKeys root) =
      (Entries.lookup name root).map (sectionWithoutTagged (declaredTasks root) name) := by
  rw [withoutTaggedKeys, Entries.lookup_mapValues, Entries.lookup_withoutTagged]

/-- The names of the entries are the same. -/
theorem entryNames_sectionWithoutTagged (declared : List String) (name : String) (v : Value) :
    (sectionWithoutTagged declared name v).entryNames = v.entryNames := by
  cases v with
  | mapping es =>
      show Entries.names (Entries.mapValues _ es) = Entries.names es
      rw [Entries.names_eq, Entries.names_eq, Entries.keys_mapValues]
  | _ => rfl

theorem declaredTasks_withoutTaggedKeys (root : Entries) :
    declaredTasks (withoutTaggedKeys root) = declaredTasks root := by
  rw [declaredTasks_eq, declaredTasks_eq, lookup_withoutTaggedKeys]
  cases Entries.lookup "tasks" root with
  | none => rfl
  | some v => exact entryNames_sectionWithoutTagged _ _ v

/-- Known keys with tags have no effect on what is read, and are no problems. -/
theorem document_withoutTaggedKeys (root : Entries) :
    document (withoutTaggedKeys root) = document root := by
  have hunknown : (withoutTaggedKeys root).keys.filter (fun k ↦ !readsAs sections k) =
      (Entries.keys root).filter fun k ↦ !readsAs sections k := by
    rw [withoutTaggedKeys, Entries.keys_mapValues]
    exact unknownKeys_withoutTagged sections root
  have hoptional {α : Type} {read : Value → Checked (List α)} {name : String}
      (hread : ∀ v, read (sectionWithoutTagged (declaredTasks root) name v) = read v) :
      optional read (Entries.lookup name (withoutTaggedKeys root)) =
        optional read (Entries.lookup name root) := by
    rw [lookup_withoutTaggedKeys]
    cases Entries.lookup name root with
    | none => rfl
    | some v => exact hread v
  rw [document, document, hunknown, declaredTasks_withoutTaggedKeys,
    hoptional parameters_withoutTagged, hoptional tasks_withoutTagged,
    hoptional graph_withoutTagged]
  simp only [lookup_withoutTaggedKeys, Option.isNone_map]

/-- A mapping of the document, and the names by which its keys are known. -/
inductive KnownBy (root : Entries) : Entries → List String → Prop where
  | document : KnownBy root root sections
  | entry {name : String} {e : Value × Value} (hn : name ∈ sections)
    (he : e ∈ Entries.under name root) : KnownBy root e.2.ownEntries
      (knownKeys (declaredTasks root) name e.2.ownEntries)

/-- No mapping of a document has a key twice if nothing in it has. -/
theorem KnownBy.distinct {v : Value} (hd : v.KeysDistinct) {es : Entries} {names : List String}
    (h : KnownBy v.ownEntries es names) : es.Distinct := by
  cases h with
  | document => exact hd.here
  | @entry name e _ he =>
      rw [Entries.under] at he
      cases hw : Entries.lookup name v.ownEntries with
      | none =>
          rw [hw] at he
          exact absurd he List.not_mem_nil
      | some w =>
          rw [hw] at he
          have hwd : w.KeysDistinct := hd.ownEntry (Entries.mem_of_lookup hw)
          exact (hwd.ownEntry he).here

end Shape

namespace Definition

/-- The names by which the keys of a definition are known. -/
def knownNames : List String := ["is_a", "list", "tuple", "mapping", "union"]

theorem checkKeys_withoutTagged (name : Option String) (es : Entries) :
    checkKeys name (es.withoutTagged knownNames) = checkKeys name es := by
  induction es with
  | nil => rfl
  | cons e es ih =>
      obtain ⟨k, v⟩ := e
      rw [Entries.withoutTagged, List.filter_cons]
      split
      · rw [checkKeys, checkKeys, ← ih]
        rfl
      · rename_i h
        obtain ⟨-, hk⟩ : k.isTagged = true ∧ Shape.readsAs knownNames k = true := by simpa using h
        rw [Shape.readsAs] at hk
        rw [checkKeys, ← ih]
        cases ht : k.text? with
        | none =>
            rw [ht] at hk
            cases hk
        | some s =>
            rw [ht] at hk
            exact (if_pos hk).symm

/-- Known keys with tags have no effect on a definition, and are no mistakes. -/
theorem ofValue_withoutTagged (name : Option String) (es : Entries) :
    Definition.ofValue name (.mapping (es.withoutTagged knownNames)) =
      Definition.ofValue name (.mapping es) := by
  have houtline : outline name (es.withoutTagged knownNames) = outline name es := by
    simp only [outline, structures, checkKeys_withoutTagged, Entries.lookup_withoutTagged]
  rw [Definition.ofValue, Definition.ofValue, houtline]

end Definition

namespace Description

/-- A step without problems has the dependencies that are looked up for it. -/
theorem dependencies_of_stepEntry {declared : List String} {e : Value × Value} {s : Step}
    (h : Shape.stepEntry declared e = pure (some s)) :
    Shape.dependencies s.name (Entries.lookup "dependencies" e.2.ownEntries) =
      pure s.dependencies := by
  obtain ⟨k, v⟩ := e
  obtain ⟨name, -, -, hstep⟩ := Shape.stepEntry_eq_pure_iff.1 h
  cases v with
  | mapping spec =>
      rw [Shape.step_mapping_eq_pure_iff, Shape.stepParts_eq_pure_iff] at hstep
      obtain ⟨i, deps, -, hdeps, hs⟩ := hstep
      obtain ⟨i, rfl, rfl⟩ := Option.map_eq_some_iff.1 hs.symm
      exact hdeps
  | _ => exact absurd hstep Checked.reject_ne_pure

/-- Where keys are distinct, an entry with a known key is read if its key has no tag, at every level
of a document and in a type definition; known keys with tags can be left out, and nothing changes.
So a step has the dependencies that stand under the plain key, and no others. -/
theorem known_entries_read {v : Value} (hd : v.KeysDistinct) :
    (∀ es names, Shape.KnownBy v.ownEntries es names → ∀ e ∈ es, ∀ name ∈ names,
      e.1.text? = some name → e.1.isTagged = false → Entries.lookup name es = some e.2) ∧
    ofValue (v.mapEntries Shape.withoutTaggedKeys) = ofValue v ∧
    (∀ d, ofValue v = .ok d → List.Forall₂ (fun e s ↦ Shape.dependencies s.name
      (Entries.lookup "dependencies" e.2.ownEntries) = pure s.dependencies)
      (Entries.under "graph" v.ownEntries) d.steps) ∧
    (∀ e ∈ v.ownEntries, ∀ key ∈ Definition.knownNames, e.1.text? = some key →
      e.1.isTagged = false → Entries.lookup key v.ownEntries = some e.2) ∧
    ∀ name, Definition.ofValue name (v.mapEntries (Entries.withoutTagged Definition.knownNames)) =
      Definition.ofValue name v := by
  have hplain {es : Entries} (hes : es.Distinct) {e : Value × Value} (he : e ∈ es) {name : String}
      (hname : e.1.text? = some name) (htag : e.1.isTagged = false) :
      Entries.lookup name es = some e.2 := by
    rwa [hes.lookup_eq_some_iff, ← Value.eq_string_of_text? htag hname]
  refine ⟨fun es names hes e he name _ ↦ hplain (hes.distinct hd) he, ?_, ?_,
    fun e he key _ ↦ hplain hd.here he, fun name ↦ ?_⟩
  · cases v with
    | mapping root =>
        exact congrArg Checked.toExcept (Shape.document_withoutTaggedKeys root)
    | _ => rfl
  · intro d h
    obtain ⟨root, rfl, hroot⟩ := ofValue_eq_ok_iff.1 h
    obtain ⟨-, -, ts, gs, -, -, hgs, hsteps⟩ := Shape.document_eq_pure_iff.1 hroot
    obtain ⟨es, rfl, -, hes⟩ := Shape.graph_eq_pure_iff.1 hsteps
    rw [Value.ownEntries, Entries.under, hgs]
    exact hes.imp fun _ _ ↦ dependencies_of_stepEntry
  · cases v with
    | mapping es => exact Definition.ofValue_withoutTagged name es
    | _ => rfl

/-- A document in which two steps are to wait for the first, one of them under a key with a tag. -/
def mislaid : Value := .mapping [
  (.string "tasks", .mapping [
    (.string "fit", .mapping [(.string "plugin", .string "lab.tasks.fit")])]),
  (.string "graph", .mapping [
    (.string "train", .mapping [(.string "fit", .null)]),
    (.string "score", .mapping [(.string "fit", .null),
      (.string "dependencies", .string "train")]),
    (.string "plot", .mapping [(.string "fit", .null),
      (.tagged "old" (.string "dependencies"), .string "train")])])]

theorem keysDistinct_mislaid : mislaid.KeysDistinct := by
  simp [mislaid, Value.KeysDistinct, Value.everywhere_mapping, Value.everywhere_tagged,
    Value.ownEntries, Entries.Distinct, Value.same]

theorem ofValue_mislaid : ofValue mislaid = .ok ⟨[], [⟨"fit", "lab.tasks.fit", []⟩],
    [⟨"train", "fit", [.literal .null], [], []⟩,
    ⟨"score", "fit", [.literal .null], [], ["train"]⟩,
    ⟨"plot", "fit", [.literal .null], [], []⟩]⟩ := by rfl

/-- The names by which the keys of a step of the document are known. -/
theorem knownBy_mislaid {e : Value × Value} (he : e ∈ Entries.under "graph" mislaid.ownEntries)
    (hform : Shape.isExpanded ["fit"] e.2.ownEntries = false) :
    Shape.KnownBy mislaid.ownEntries e.2.ownEntries ["dependencies"] := by
  have h := Shape.KnownBy.entry (by simp [Shape.sections]) he
  have hdeclared : Shape.declaredTasks mislaid.ownEntries = ["fit"] := by rfl
  have hkeys : Shape.knownKeys ["fit"] "graph" e.2.ownEntries = ["dependencies"] := by
    rw [Shape.knownKeys, Shape.knownStepKeys, hform]
    rfl
  rwa [hdeclared, hkeys] at h

/-- The theorem at the plain key: the entry is read, and the step has what stands there. -/
theorem mislaid_score_waits : mislaid.KeysDistinct ∧ ∃ e ∈ Entries.under "graph" mislaid.ownEntries,
    e.1 = .string "score" ∧ Entries.lookup "dependencies" e.2.ownEntries = some (.string "train") ∧
    ∃ d, ofValue (mislaid.mapEntries Shape.withoutTaggedKeys) = .ok d ∧
      d.steps.map Step.dependencies = [[], ["train"], []] := by
  obtain ⟨hplain, htagged, -, -, -⟩ := known_entries_read keysDistinct_mislaid
  have he : (Value.string "score", Value.mapping [(.string "fit", .null),
      (.string "dependencies", .string "train")]) ∈ Entries.under "graph" mislaid.ownEntries :=
    List.mem_cons_of_mem _ List.mem_cons_self
  refine ⟨keysDistinct_mislaid, _, he, rfl, ?_, _, htagged.trans ofValue_mislaid, rfl⟩
  exact hplain _ _ (knownBy_mislaid he rfl) (.string "dependencies", .string "train")
    (List.mem_cons_of_mem _ List.mem_cons_self) "dependencies" List.mem_cons_self rfl rfl

/-- An entry of the last step is recognised and not read: the document is accepted, and the step
waits for nothing.  The mapping of a definition loses what it is a case of in the same way. -/
theorem mislaid_plot_waits_for_nothing : mislaid.KeysDistinct ∧
    (∃ es names, Shape.KnownBy mislaid.ownEntries es names ∧ ∃ e ∈ es, ∃ name ∈ names,
      e.1.text? = some name ∧ Entries.lookup name es = none) ∧
    (∃ d, ofValue mislaid = .ok d ∧ ∃ s ∈ d.steps, s.name = "plot" ∧ s.dependencies = []) ∧
    Definition.ofValue none (.mapping [(.tagged "old" (.string "is_a"), .string "number")]) =
      .ok (.simple none) := by
  refine ⟨keysDistinct_mislaid, ?_, ⟨_, ofValue_mislaid,
    ⟨"plot", "fit", [.literal .null], [], []⟩, ?_, rfl, rfl⟩, ?_⟩
  · have he : (Value.string "plot", Value.mapping [(.string "fit", .null),
        (.tagged "old" (.string "dependencies"), .string "train")]) ∈
        Entries.under "graph" mislaid.ownEntries :=
      List.mem_cons_of_mem _ (List.mem_cons_of_mem _ List.mem_cons_self)
    exact ⟨_, _, knownBy_mislaid he rfl, _, List.mem_cons_of_mem _ List.mem_cons_self,
      "dependencies", List.mem_cons_self, rfl, rfl⟩
  · exact List.mem_of_getLast? rfl
  · have houtline : Definition.outline none
        [(.tagged "old" (.string "is_a"), .string "number")] = .ok (.simple none) := by rfl
    rw [Definition.ofValue, houtline]

end Description

end LabPlan
