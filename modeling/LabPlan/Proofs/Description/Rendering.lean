import LabPlan.Proofs.Description.Steps

/-! # The canonical document

What a document holds is well formed if the document's keys are distinct and carry no tags, and a
well-formed description is what its canonical document holds. -/

namespace LabPlan

namespace Shape

/-- A document without problems: tasks and graph are there, and each section is read without any;
the steps may invoke the tasks that are read. -/
theorem document_eq_pure_iff {root : Entries} {d : Description} :
    document root = pure d ↔ unknownKeys sections root = [] ∧
      optional parameters (Entries.lookup "parameters" root) = pure d.parameters ∧
      ∃ ts gs, Entries.lookup "tasks" root = some ts ∧ tasks ts = pure d.tasks ∧
        Entries.lookup "graph" root = some gs ∧
        graph (d.tasks.map TaskDecl.name) gs = pure d.steps := by
  have hdocument : document root = do
      Checked.notes ((unknownKeys sections root).map .unknownSection)
      let missing := ["tasks", "graph"].filter fun s ↦ (Entries.lookup s root).isNone
      Checked.notes (missing.map .missingSection)
      let parameters ← optional parameters (Entries.lookup "parameters" root)
      let tasks ← optional tasks (Entries.lookup "tasks" root)
      let steps ← optional (graph (declaredTasks root)) (Entries.lookup "graph" root)
      return ⟨parameters, tasks, steps⟩ := rfl
  simp only [hdocument, Checked.bind_eq_pure_iff, Checked.notes_eq_pure_iff, List.map_eq_nil_iff,
    exists_const, Checked.pure_inj]
  refine and_congr_right fun _ ↦ ?_
  constructor
  · rintro ⟨hmissing, ps, hps, ts, hts, ss, hss, rfl⟩
    have hfound (s : String) (hs : s ∈ ["tasks", "graph"]) :
        ∃ v, Entries.lookup s root = some v := by
      have := List.filter_eq_nil_iff.1 hmissing s hs
      rwa [Option.isNone_iff_eq_none, ← ne_eq, Option.ne_none_iff_exists'] at this
    obtain ⟨tv, htv⟩ := hfound "tasks" (by simp)
    obtain ⟨gv, hgv⟩ := hfound "graph" (by simp)
    rw [htv] at hts
    -- The graph is read with the tasks that are written, which here are those that are read.
    rw [hgv, declaredTasks_of_tasks htv hts] at hss
    exact ⟨hps, tv, gv, htv, hts, hgv, hss⟩
  · rintro ⟨hps, tv, gv, htv, hts, hgv, hss⟩
    rw [← declaredTasks_of_tasks htv hts] at hss
    refine ⟨by simp [htv, hgv], d.parameters, hps, d.tasks, ?_, d.steps, ?_, rfl⟩
    · rwa [htv]
    · rwa [hgv]

end Shape

namespace Description

open Shape

theorem ofValue_eq_ok_iff {v : Value} {d : Description} :
    ofValue v = .ok d ↔ ∃ root, v = .mapping root ∧ document root = pure d := by
  cases v with
  | mapping root =>
      rw [ofValue, Checked.toExcept_eq_ok_iff]
      simp
  | _ => exact iff_of_false (by simp [ofValue]) (by simp)

/-- Whatever its keys are, the parameters of an accepted document can be declared one after the
other. -/
theorem areDeclarable_of_ofValue {v : Value} {d : Description} (h : ofValue v = .ok d) :
    AreDeclarable [] d.parameters := by
  obtain ⟨root, rfl, hroot⟩ := ofValue_eq_ok_iff.1 h
  obtain ⟨-, hps, -⟩ := document_eq_pure_iff.1 hroot
  cases hv : Entries.lookup "parameters" root with
  | none =>
      rw [hv] at hps
      rw [← Checked.pure_inj.1 hps]
      exact areDeclarable_nil []
  | some v =>
      rw [hv] at hps
      exact areDeclarable_of_parameters hps

/-- What a document with plain keys holds is well formed. -/
theorem isWellFormed_of_ofValue {v : Value} (hv : v.HasPlainKeys) {d : Description}
    (h : ofValue v = .ok d) : d.IsWellFormed := by
  have hparams := areDeclarable_of_ofValue h
  obtain ⟨root, rfl, hroot⟩ := ofValue_eq_ok_iff.1 h
  obtain ⟨-, -, ts, gs, hts, htasks, hgs, hsteps⟩ := document_eq_pure_iff.1 hroot
  obtain ⟨hne, hnodup, htasks⟩ := isWellFormed_of_tasks (hv.lookup hts) htasks
  obtain ⟨hne', hnodup', hsteps⟩ := isWellFormed_of_graph (hv.lookup hgs) hsteps
  exact {
    parameters_nodup := hparams.nodup
    parameters_undotted := hparams.undotted
    parameters_typed := hparams.typed
    tasks_ne_nil := hne
    tasks_nodup := hnodup
    tasks := htasks
    steps_ne_nil := hne'
    steps_nodup := hnodup'
    steps_undotted := fun s hs ↦ (hsteps s hs).1
    steps_declared := fun s hs ↦ (hsteps s hs).2.1
    steps := fun s hs ↦ (hsteps s hs).2.2 }

/-- A well-formed description is held by its canonical document. -/
theorem ofValue_toValue {d : Description} (h : d.IsWellFormed) : ofValue d.toValue = .ok d := by
  refine ofValue_eq_ok_iff.2 ⟨_, rfl, document_eq_pure_iff.2 ⟨rfl, ?_, _, _, rfl, ?_, rfl, ?_⟩⟩
  · exact parameterEntries_toValue
      ⟨h.parameters_nodup, fun _ _ ↦ List.not_mem_nil, h.parameters_undotted, h.parameters_typed⟩
  · exact tasks_toValue h.tasks_ne_nil h.tasks
  · exact graph_toValue h.steps_ne_nil h.steps_undotted h.steps_declared h.steps

/-- Documents with distinct and untagged keys hold well-formed descriptions only, and every
well-formed description is held by its canonical document. -/
theorem canonical_document :
    (∀ v d, Value.KeysDistinct v → v.KeysUntagged → ofValue v = .ok d → d.IsWellFormed) ∧
    ∀ d, IsWellFormed d → ofValue d.toValue = .ok d :=
  ⟨fun _ _ hd hu ↦ isWellFormed_of_ofValue ⟨hd, hu⟩, fun _ ↦ ofValue_toValue⟩

/-- A document with short forms: a task called `task`, which a step invokes without naming it, a
typed parameter, and references at some depth. -/
def shortForms : Value := .mapping [
  (.string "parameters", .mapping [
    (.string "rate", .mapping [(.string "type", .string "number")]), (.string "seed", .int 7)]),
  (.string "tasks", .mapping [
    (.string "task", .mapping [(.string "plugin", .string "lab.tasks.run")]),
    (.string "fit", .mapping [
      (.string "plugin", .string "lab.tasks.fit"), (.string "outputs", .string "model")])]),
  (.string "graph", .mapping [
    (.string "train", .mapping [(.string "fit", .mapping [(.string "rate", .string "$rate")])]),
    (.string "score", .mapping [
      (.string "task", .sequence [.string "$train.model", .tagged "!seconds" (.int 3)]),
      (.string "dependencies", .string "train")])])]

/-- What the document holds. -/
def longForms : Description where
  parameters := [⟨"rate", .null, some "number"⟩, ⟨"seed", .int 7, none⟩]
  tasks := [⟨"task", "lab.tasks.run", []⟩, ⟨"fit", "lab.tasks.fit", ["model"]⟩]
  steps := [
    ⟨"train", "fit", [], [("rate", .reference ⟨"rate", none⟩)], []⟩,
    ⟨"score", "task", [.reference ⟨"train", some "model"⟩, .literal (.int 3)], [], ["train"]⟩]

/-- The theorem at a document with short forms and at what it holds. -/
theorem shortForms_canonical : shortForms.KeysDistinct ∧ shortForms.KeysUntagged ∧
    ofValue shortForms = .ok longForms ∧ longForms.IsWellFormed ∧
    ofValue longForms.toValue = .ok longForms := by
  have hd : shortForms.KeysDistinct := by
    simp [shortForms, Value.KeysDistinct, Value.everywhere_mapping, Value.everywhere_sequence,
      Value.everywhere_tagged, Value.ownEntries, Entries.Distinct, Value.same]
  have hu : shortForms.KeysUntagged := by
    simp [shortForms, Value.KeysUntagged, Value.everywhere_mapping, Value.everywhere_sequence,
      Value.everywhere_tagged, Value.ownEntries, Value.isTagged, -Prod.forall]
  have hread : ofValue shortForms = .ok longForms := by rfl
  have hwf := canonical_document.1 shortForms longForms hd hu hread
  exact ⟨hd, hu, hread, hwf, canonical_document.2 longForms hwf⟩

end Description

end LabPlan
