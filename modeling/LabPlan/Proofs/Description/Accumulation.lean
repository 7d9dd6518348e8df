import LabPlan.Proofs.Description.Names
import LabPlan.Proofs.Description.Order

/-! # Entry by entry

The problems of a document are those of its own keys and then those of the entries of its sections,
in document order.  An entry that gives nothing has a problem, and one without problems gives what
stands under its name.  Parameters are read with the names before them, tasks on their own, and
steps with the names of all tasks, so nothing else in the document has any bearing on an entry. -/

namespace LabPlan

namespace Checked

variable {α β : Type}

/-- Something is given exactly if there is no problem. -/
def IsAccounted (c : Checked (Option α)) : Prop := c.problems = [] ↔ ∃ a, c.result = some a

theorem isAccounted_pure (a : α) : (pure (some a) : Checked (Option α)).IsAccounted :=
  iff_of_true rfl ⟨a, rfl⟩

theorem isAccounted_reject (p : Problem) : (reject p : Checked (Option α)).IsAccounted := by
  refine iff_of_false (List.cons_ne_nil p []) ?_
  rintro ⟨a, h⟩
  cases h

/-- A reading that needs what another gives is accounted for if that one is. -/
theorem IsAccounted.bind {c : Checked (Option α)} (hc : c.IsAccounted)
    {f : Option α → Checked (Option β)} (hnone : (f none).result = none)
    (hsome : ∀ a, (f (some a)).IsAccounted) : (c >>= f).IsAccounted := by
  rw [IsAccounted, problems_bind, result_bind, List.append_eq_nil_iff]
  cases h : c.result with
  | none =>
      refine iff_of_false ?_ ?_
      · rintro ⟨hproblems, -⟩
        obtain ⟨a, ha⟩ := hc.1 hproblems
        cases h.symm.trans ha
      · rintro ⟨b, hb⟩
        cases hnone.symm.trans hb
  | some a => exact (and_iff_right (hc.2 ⟨a, h⟩)).trans (hsome a)

end Checked

namespace Shape

open Checked

variable {declared : List String}

/-! ## Parameters -/

/-- An entry of the parameters, given the names declared before. -/
def parameterEntry (seen : List String) (e : Value × Value) : Checked (Option Parameter) :=
  match e.1.text? with
  | none => reject (.parameterNameNotText e.1)
  | some name => do
    if ← declare seen name then parameter name e.2
    else return none

/-- The names that are declared after an entry. -/
def declaredAfter (seen : List String) (e : Value × Value) : List String :=
  match e.1.text? with
  | none => seen
  | some name => if (declare seen name).result then name :: seen else seen

/-- The readings of the parameters, each with the names before it. -/
def parameterReadings (seen : List String) : Entries → List (Checked (Option Parameter))
  | [] => []
  | e :: es => parameterEntry seen e :: parameterReadings (declaredAfter seen e) es

theorem problems_parameterEntries (seen : List String) (es : Entries) :
    (parameterEntries seen es).problems = (parameterReadings seen es).flatMap problems := by
  induction es generalizing seen with
  | nil => rfl
  | cons e es ih =>
      obtain ⟨key, spec⟩ := e
      rw [parameterEntries, parameterReadings, List.flatMap_cons, ← ih, parameterEntry,
        declaredAfter]
      cases key.text? with
      | none => rfl
      | some name =>
          simp only [problems_bind]
          cases (declare seen name).result with
          | true => simp only [if_true, problems_bind, problems_pure, List.append_nil,
              List.append_assoc]
          | false => simp only [Bool.false_eq_true, if_false, problems_pure, List.append_nil]

theorem isAccounted_parameterType (name : String) (spec : Entries) :
    (parameterType name spec).IsAccounted := by
  rw [parameterType]
  split
  · exact isAccounted_pure none
  · split
    · exact isAccounted_pure _
    · exact isAccounted_reject _
  · exact isAccounted_reject _

theorem isAccounted_parameter (name : String) (v : Value) : (parameter name v).IsAccounted := by
  cases v with
  | mapping spec =>
      rw [parameter]
      split
      · exact isAccounted_reject _
      · refine (isAccounted_parameterType name spec).bind rfl fun type ↦ ?_
        dsimp only
        split
        · split
          · exact isAccounted_pure _
          · exact isAccounted_reject _
        · exact isAccounted_pure _
  | _ => exact isAccounted_pure _

/-- A name is declared, or there is one problem. -/
theorem declare_cases (seen : List String) (name : String) :
    declare seen name = pure true ∨ ∃ p, declare seen name = do note p; return false := by
  rw [declare]
  split
  · exact .inr ⟨_, rfl⟩
  · split
    · exact .inr ⟨_, rfl⟩
    · exact .inl rfl

theorem isAccounted_parameterEntry (seen : List String) (e : Value × Value) :
    (parameterEntry seen e).IsAccounted := by
  rw [parameterEntry]
  split
  · exact isAccounted_reject _
  · rename_i name _
    obtain h | ⟨p, h⟩ := declare_cases seen name
    · rw [h]
      exact isAccounted_parameter name e.2
    · rw [h]
      exact isAccounted_reject p

/-! ## Tasks -/

theorem isAccounted_plugin (name : String) (v : Option Value) : (plugin name v).IsAccounted := by
  rw [plugin.eq_def]
  split
  · exact isAccounted_reject _
  · split
    · exact isAccounted_pure _
    · exact isAccounted_reject _
  · exact isAccounted_reject _

theorem isAccounted_outputNames (name : String) (v : Value) :
    (outputNames name v).IsAccounted := by
  rw [outputNames.eq_def]
  split
  · exact isAccounted_pure _
  · split
    · exact isAccounted_pure _
    · exact isAccounted_reject _
  · exact isAccounted_reject _

theorem isAccounted_outputsIfAny (name : String) (v : Option Value) :
    (outputsIfAny name v).IsAccounted := by
  cases v with
  | none => exact isAccounted_pure _
  | some v =>
      refine (isAccounted_outputNames name v).bind rfl fun names ↦ ?_
      dsimp only
      split
      · exact isAccounted_reject _
      · exact isAccounted_pure _

/-- A task that is given has known keys, a plugin and outputs. -/
theorem parts_of_task {name : String} {spec : Entries} {t : TaskDecl}
    (h : (task name (.mapping spec)).result = some t) : unknownKeys taskKeys spec = [] ∧
      (∃ p, (plugin name (Entries.lookup "plugin" spec)).result = some p) ∧
      ∃ os, (outputsIfAny name (Entries.lookup "outputs" spec)).result = some os := by
  rw [task_mapping] at h
  simp only [result_bind] at h
  split at h
  · rename_i p os hp hos
    refine ⟨?_, ⟨p, hp⟩, os, hos⟩
    by_contra hunknown
    rw [← List.isEmpty_iff] at hunknown
    cases h.symm.trans (if_neg hunknown)
  · cases h

theorem isAccounted_task (name : String) (v : Value) : (task name v).IsAccounted := by
  constructor
  · intro h
    obtain ⟨t, ht, -⟩ := isWellFormed_of_task (eq_pure_iff.2 ⟨h, rfl⟩)
    exact ⟨t, ht⟩
  · rintro ⟨t, ht⟩
    cases v with
    | mapping spec =>
        obtain ⟨hunknown, ⟨p, hp⟩, os, hos⟩ := parts_of_task ht
        rw [task_mapping]
        simp only [problems_bind, hunknown, hp, hos, (isAccounted_plugin name _).2 ⟨p, hp⟩,
          (isAccounted_outputsIfAny name _).2 ⟨os, hos⟩]
        rfl
    | _ => cases ht

theorem isAccounted_taskEntry (e : Value × Value) : (taskEntry e).IsAccounted := by
  rw [taskEntry]
  split
  · exact isAccounted_reject _
  · exact isAccounted_task _ _

/-! ## Steps -/

theorem isAccounted_step (declared : List String) (name : String) (v : Value) :
    (step declared name v).IsAccounted := by
  constructor
  · intro h
    obtain ⟨s, hs, -⟩ := isWellFormed_of_step (eq_pure_iff.2 ⟨h, rfl⟩)
    exact ⟨s, hs⟩
  · rintro ⟨s, hs⟩
    cases v with
    | mapping spec =>
        rw [step] at hs ⊢
        dsimp only at hs ⊢
        split at hs
        · rename_i h
          exact List.isEmpty_iff.1 h
        · cases hs
    | _ => cases hs

theorem isAccounted_stepEntry (declared : List String) (e : Value × Value) :
    (stepEntry declared e).IsAccounted := by
  rw [stepEntry]
  split
  · exact isAccounted_reject _
  · split
    · exact isAccounted_reject _
    · exact isAccounted_step _ _ _

/-! ## Documents -/

/-- What a list of parameters holds, a bare name with nothing under it, or what a mapping does. -/
def parameterItems : Value → Option Entries
  | .sequence items => some (items.map fun v ↦ (v, .null))
  | .mapping es => some es
  | _ => none

/-- What a mapping holds that is not empty. -/
def someEntries : Value → Option Entries
  | .mapping (e :: es) => some (e :: es)
  | _ => none

/-- The problems of a section: none if it is not there, those of the readings of its entries if it
has entries, and a single one otherwise. -/
def sectionProblems {α : Type} (entries : Value → Option Entries)
    (readings : Entries → List (Checked (Option α))) (p : Problem) : Option Value → List Problem
  | none => []
  | some v => (entries v).elim [p] fun es ↦ (readings es).flatMap problems

/-- The problems of a document, in order: its unknown keys, the missing ones, and then those of each
section, entry by entry. -/
def problemsOf (root : Entries) : List Problem :=
  (unknownKeys sections root).map .unknownSection ++
  (["tasks", "graph"].filter fun s ↦ (Entries.lookup s root).isNone).map .missingSection ++
  sectionProblems parameterItems (parameterReadings []) .parametersNotNames
    (Entries.lookup "parameters" root) ++
  sectionProblems someEntries (List.map taskEntry) .tasksNotMapping
    (Entries.lookup "tasks" root) ++
  sectionProblems someEntries (List.map (stepEntry (declaredTasks root))) .graphNotMapping
    (Entries.lookup "graph" root)

/-- The description has one parameter, task and step for each entry, in order, each as it is read
under the name of its entry. -/
structure HoldsEntries (root : Entries) (d : Description) : Prop where
  parameters : List.Forall₂
    (fun e p ↦ e.1.text? = some p.name ∧ parameter p.name e.2 = pure (some p))
    (((Entries.lookup "parameters" root).bind parameterItems).getD []) d.parameters
  tasks : List.Forall₂ (fun e t ↦ e.1.text? = some t.name ∧ taskEntry e = pure (some t))
    (Entries.under "tasks" root) d.tasks
  steps : List.Forall₂
    (fun e s ↦ e.1.text? = some s.name ∧ stepEntry (declaredTasks root) e = pure (some s))
    (Entries.under "graph" root) d.steps

theorem parameters_eq (v : Value) : parameters v =
    (parameterItems v).elim (do note .parametersNotNames; return []) (parameterEntries []) := by
  cases v with
  | sequence items => exact parameterNames_eq [] items
  | _ => rfl

theorem problems_parameters (v : Option Value) : (optional parameters v).problems =
    sectionProblems parameterItems (parameterReadings []) .parametersNotNames v := by
  cases v with
  | none => rfl
  | some v =>
      rw [optional, sectionProblems, parameters_eq]
      cases parameterItems v with
      | none => rfl
      | some es => exact problems_parameterEntries [] es

theorem ReadsSection.eq_elim {α : Type} {read : Value → Checked (List α)}
    {entry : Value × Value → Checked (Option α)} {p : Problem} (hread : ReadsSection read entry p)
    (v : Value) : read v = (someEntries v).elim (do note p; return [])
      fun es ↦ do let found ← forEach entry es; return found.filterMap id := by
  rw [someEntries.eq_def]
  split
  · exact hread.entries _ _
  · rename_i h
    exact hread.other v h

theorem ReadsSection.problems_optional {α : Type} {read : Value → Checked (List α)}
    {entry : Value × Value → Checked (Option α)} {p : Problem} (hread : ReadsSection read entry p)
    (v : Option Value) : (optional read v).problems =
      sectionProblems someEntries (List.map entry) p v := by
  cases v with
  | none => rfl
  | some v =>
      rw [optional, sectionProblems, hread.eq_elim]
      cases someEntries v with
      | none => rfl
      | some es =>
          show (forEach entry es).problems ++ [] = (es.map entry).flatMap problems
          rw [List.append_nil, problems_forEach, List.flatMap_map]

theorem problems_document (root : Entries) : (document root).problems = problemsOf root := by
  rw [document]
  simp only [problems_bind, problems_notes, problems_pure, List.append_nil, problems_parameters,
    readsSection_tasks.problems_optional, readsSection_graph.problems_optional, problemsOf,
    unknownKeys, List.append_assoc]

theorem holdsEntries_of_document {root : Entries} {d : Description}
    (h : document root = pure d) : HoldsEntries root d := by
  obtain ⟨-, hps, ts, gs, hts, htasks, hgs, hsteps⟩ := document_eq_pure_iff.1 h
  rw [← declaredTasks_of_tasks hts htasks] at hsteps
  constructor
  case parameters =>
    cases hv : Entries.lookup "parameters" root with
    | none =>
        rw [hv] at hps
        rw [← pure_inj.1 hps]
        exact .nil
    | some v =>
        rw [hv, optional, parameters_eq] at hps
        cases hes : parameterItems v with
        | none =>
            rw [hes] at hps
            exact absurd hps note_bind_ne_pure
        | some es =>
            rw [hes] at hps
            rw [Option.bind_some, hes]
            exact (areDeclarable_of_parameterEntries hps).2
  case tasks =>
    obtain ⟨es, rfl, -, hes⟩ := tasks_eq_pure_iff.1 htasks
    rw [Entries.under, hts]
    exact hes.imp fun _ _ he ↦ ⟨(text?_of_taskEntry he).1, he⟩
  case steps =>
    obtain ⟨es, rfl, -, hes⟩ := graph_eq_pure_iff.1 hsteps
    rw [Entries.under, hgs]
    exact hes.imp fun _ _ he ↦ ⟨(isWellFormed_of_stepEntry he).1, he⟩

theorem mem_declaredTasks_iff {root : Entries} {s : String} : s ∈ declaredTasks root ↔
    ∃ e ∈ ((Entries.lookup "tasks" root).bind Value.entries?).getD [], e.1.text? = some s := by
  rw [declaredTasks]
  cases (Entries.lookup "tasks" root).bind Value.entries? with
  | none => simp
  | some es =>
      show s ∈ (Entries.keys es).filterMap Value.text? ↔ _
      rw [← Entries.names_eq]
      exact List.mem_filterMap

end Shape

namespace Description

/-- A document has exactly these problems, and one without problems holds one thing for each entry.
No entry is left out without a problem, and of the rest of the document only the names of the tasks
have any bearing on a step, whether or not the tasks are in order. -/
theorem ofValue_entry_by_entry (root : Entries) :
    (Shape.problemsOf root ≠ [] → ofValue (.mapping root) = .error (Shape.problemsOf root)) ∧
    (Shape.problemsOf root = [] →
      ∃ d, ofValue (.mapping root) = .ok d ∧ Shape.HoldsEntries root d) ∧
    (∀ seen e, (Shape.parameterEntry seen e).IsAccounted) ∧
    (∀ e, (Shape.taskEntry e).IsAccounted) ∧
    (∀ declared e, (Shape.stepEntry declared e).IsAccounted) ∧
    (∀ declared declared', (∀ s, s ∈ declared ↔ s ∈ declared') →
      Shape.stepEntry declared = Shape.stepEntry declared') ∧
    ∀ s, s ∈ Shape.declaredTasks root ↔
      ∃ e ∈ ((Entries.lookup "tasks" root).bind Value.entries?).getD [], e.1.text? = some s := by
  refine ⟨fun h ↦ ?_, fun h ↦ ?_, Shape.isAccounted_parameterEntry, Shape.isAccounted_taskEntry,
    Shape.isAccounted_stepEntry, fun _ _ ↦ Shape.stepEntry_eq_of_mem_iff,
    fun _ ↦ Shape.mem_declaredTasks_iff⟩
  · rw [← Shape.problems_document] at h ⊢
    rw [ofValue, Checked.toExcept, if_neg]
    simpa using h
  · rw [← Shape.problems_document] at h
    have hroot : Shape.document root = pure (Shape.document root).result :=
      Checked.eq_pure_iff.2 ⟨h, rfl⟩
    exact ⟨_, ofValue_eq_ok_iff.2 ⟨root, rfl, hroot⟩, Shape.holdsEntries_of_document hroot⟩

/-- A document with problems in every section, between entries that have none. -/
def blemished : Entries := [
  (.string "notes", .null),
  (.string "parameters", .sequence [.string "rate", .int 3, .string "rate"]),
  (.string "tasks", .mapping [
    (.string "fit", .mapping []),
    (.string "plot", .mapping [(.string "plugin", .string "lab.tasks.plot")])]),
  (.string "graph", .mapping [
    (.string "score", .mapping [(.string "run", .null)]),
    (.string "train", .mapping [(.string "fit", .null)])])]

/-- The theorem at that document: each problem is found where it is, and a step that invokes a task
with problems is still a step. -/
theorem blemished_read : Shape.problemsOf blemished ≠ [] ∧
    ofValue (.mapping blemished) = .error [.unknownSection (.string "notes"),
      .parameterNameNotText (.int 3), .parameterRepeated "rate", .pluginMissing "fit",
      .unknownTaskInvoked "score" (.string "run")] ∧
    ∃ s, (Shape.stepEntry (Shape.declaredTasks blemished)
      (.string "train", .mapping [(.string "fit", .null)])).result = some s := by
  have hproblems : Shape.problemsOf blemished = [.unknownSection (.string "notes"),
      .parameterNameNotText (.int 3), .parameterRepeated "rate", .pluginMissing "fit",
      .unknownTaskInvoked "score" (.string "run")] := by rfl
  obtain ⟨herror, -, -, -, hstep, -, -⟩ := ofValue_entry_by_entry blemished
  have hne : Shape.problemsOf blemished ≠ [] := by
    rw [hproblems]
    exact List.cons_ne_nil _ _
  exact ⟨hne, (herror hne).trans (congrArg _ hproblems), (hstep _ _).1 rfl⟩

end Description

end LabPlan
