import LabPlan.Proofs.Description.Rendering
import LabPlan.Proofs.Entries
import LabPlan.Proofs.Validity

/-! # Distinct names

What a document declares is named by the keys under which it stands.  Parameters are compared as
they are declared.  Tasks, steps and keyword arguments are not: their names are distinct exactly if
no two keys have the same text, and a tag can make two keys of one text.  Where names are distinct,
each finds what it names. -/

namespace LabPlan

open StepGraph

/-- The entries of the mapping under a name; none if no mapping is there. -/
def Entries.under (name : String) (es : Entries) : Entries :=
  (lookup name es).elim [] Value.ownEntries

namespace Shape

variable {declared : List String} {name : String}

/-- The entries whose keys are the names of a step's keyword arguments. -/
def keywordEntries (declared : List String) (spec : Entries) : Entries :=
  if isExpanded declared spec then Entries.under "kwargs" spec
  else
    match spec.filter fun e ↦ !readsAs ["dependencies"] e.1 with
    | [(_, v)] => v.ownEntries
    | _ => []

/-- No two tasks, no two steps, and no two keyword arguments of a step stand under keys of the same
text. -/
structure HasDistinctNames (root : Entries) : Prop where
  tasks : (Entries.under "tasks" root).NamesDistinct
  steps : (Entries.under "graph" root).NamesDistinct
  keywords : ∀ e ∈ Entries.under "graph" root,
    (keywordEntries (declaredTasks root) e.2.ownEntries).NamesDistinct

/-! ## Names and keys -/

theorem map_name_of_tasks {v : Value} {ts : List TaskDecl} (h : tasks v = pure ts) :
    ts.map TaskDecl.name = v.ownEntries.names := by
  obtain ⟨es, rfl, -, hes⟩ := tasks_eq_pure_iff.1 h
  exact Entries.map_eq_names (hes.imp fun _ _ he ↦ (text?_of_taskEntry he).1)

theorem map_name_of_graph {v : Value} {ss : List Step} (h : graph declared v = pure ss) :
    ss.map Step.name = v.ownEntries.names := by
  obtain ⟨es, rfl, -, hes⟩ := graph_eq_pure_iff.1 h
  exact Entries.map_eq_names (hes.imp fun _ _ he ↦ (isWellFormed_of_stepEntry he).1)

theorem map_fst_of_keywords {es : Entries} {ks : List (String × Argument)}
    (h : keywords name es = pure (some ks)) : ks.map Prod.fst = es.names := by
  obtain ⟨ks', hks, hes⟩ := keywords_eq_pure_iff.1 h
  obtain rfl := Option.some.inj hks
  exact Entries.map_eq_names (hes.imp fun _ _ he ↦ he.1)

theorem map_fst_of_expanded {spec : Entries} {i : Invocation}
    (h : expanded declared name spec = pure (some i)) :
    i.kwargs.map Prod.fst = (Entries.under "kwargs" spec).names := by
  obtain ⟨-, task, args, ks, hi, -, -, -, hks⟩ := expanded_eq_pure_iff.1 h
  obtain rfl := Option.some.inj hi
  rw [Entries.under]
  cases hv : Entries.lookup "kwargs" spec with
  | none =>
      rw [hv] at hks
      obtain rfl := Option.some.inj (Checked.pure_inj.1 hks)
      rfl
  | some v =>
      rw [hv] at hks
      cases v with
      | mapping es => exact map_fst_of_keywords hks
      | _ => exact absurd hks Checked.reject_ne_pure

theorem map_fst_of_invocation {task : String} {v : Value} {i : Invocation}
    (h : invocation name task v = pure (some i)) :
    i.kwargs.map Prod.fst = v.ownEntries.names := by
  cases v with
  | mapping es =>
      obtain ⟨o, ho, hi⟩ := Checked.bind_eq_pure_iff.1 h
      obtain ⟨ks, rfl, -⟩ := keywords_eq_pure_iff.1 ho
      obtain rfl := Option.some.inj (Checked.pure_inj.1 hi)
      exact map_fst_of_keywords ho
  | _ =>
      obtain ⟨as, -, hi⟩ := Checked.bind_eq_pure_iff.1 h
      obtain rfl := Option.some.inj (Checked.pure_inj.1 hi)
      rfl

theorem keywordEntries_of_shorthand {spec : Entries} {key v : Value}
    (hx : ¬ isExpanded declared spec = true)
    (hone : (spec.filter fun e ↦ !readsAs ["dependencies"] e.1) = [(key, v)]) :
    keywordEntries declared spec = v.ownEntries := by
  rw [keywordEntries, if_neg hx, hone]

/-- A step's keyword arguments have the names of its keyword entries, in either form. -/
theorem map_fst_of_step {v : Value} {s : Step} (h : step declared name v = pure (some s)) :
    s.kwargs.map Prod.fst = (keywordEntries declared v.ownEntries).names := by
  cases v with
  | mapping spec =>
      rw [step_mapping_eq_pure_iff, stepParts_eq_pure_iff] at h
      obtain ⟨o, deps, hi, -, hs⟩ := h
      obtain ⟨i, rfl, rfl⟩ := Option.map_eq_some_iff.1 hs.symm
      show i.kwargs.map Prod.fst = (keywordEntries declared spec).names
      rw [invocationOf] at hi
      split at hi
      · rename_i hx
        rw [keywordEntries, if_pos hx]
        exact map_fst_of_expanded hi
      · rename_i hx
        rw [shorthand] at hi
        split at hi
        · rename_i hone
          rw [keywordEntries_of_shorthand hx hone]
          split at hi
          · exact map_fst_of_invocation hi
          · exact absurd hi Checked.reject_ne_pure
        · exact absurd hi Checked.reject_ne_pure
  | _ => exact absurd h Checked.reject_ne_pure

end Shape

namespace Description

variable {d : Description}

/-- Tasks have distinct names, steps have, and so have the keyword arguments of each step. -/
structure HasDistinctNames (d : Description) : Prop where
  tasks : (d.tasks.map TaskDecl.name).Nodup
  steps : (d.steps.map Step.name).Nodup
  keywords : ∀ s ∈ d.steps, (s.kwargs.map Prod.fst).Nodup

/-- Names find what they name: steps, tasks and nodes are the only ones of their name, and the edges
that lead to a step's node are those of the step. -/
structure NamesFind (d : Description) : Prop where
  step : ∀ n s, d.step? n = some s ↔ s ∈ d.steps ∧ s.name = n
  task : ∀ n t, d.task? n = some t ↔ t ∈ d.tasks ∧ t.name = n
  node : ∀ i s, d.steps[i]? = some s → (ofDescription d).index? s.name = some i
  edge : ∀ i j s, d.steps[j]? = some s → ((ofDescription d).HasEdge i j ↔
    ∃ t, d.steps[i]? = some t ∧ s.Names t.name)

theorem HasDistinctNames.namesFind (h : d.HasDistinctNames) : d.NamesFind where
  step := fun _ _ ↦ step?_eq_some_iff h.steps
  task := fun _ _ ↦ task?_eq_some_iff h.tasks
  node := by
    intro i s hs
    refine (indexIn?_eq_some_iff h.steps).2 ?_
    rw [List.getElem?_map, hs]
    rfl
  edge := by
    intro i j s hs
    rw [hasEdge_iff_names h.steps, hs]
    simp

/-- A description has distinct names exactly if the document that holds it has. -/
theorem hasDistinctNames_iff_of_ofValue {v : Value} (h : ofValue v = .ok d) :
    d.HasDistinctNames ↔ Shape.HasDistinctNames v.ownEntries := by
  obtain ⟨root, rfl, hroot⟩ := ofValue_eq_ok_iff.1 h
  obtain ⟨-, -, ts, gs, hts, htasks, hgs, hsteps⟩ := Shape.document_eq_pure_iff.1 hroot
  have ht : d.tasks.map TaskDecl.name = (Entries.under "tasks" root).names := by
    rw [Shape.map_name_of_tasks htasks, Entries.under, hts]
    rfl
  have hs : d.steps.map Step.name = (Entries.under "graph" root).names := by
    rw [Shape.map_name_of_graph hsteps, Entries.under, hgs]
    rfl
  have hk : (∀ s ∈ d.steps, (s.kwargs.map Prod.fst).Nodup) ↔ ∀ e ∈ Entries.under "graph" root,
      (Shape.keywordEntries (Shape.declaredTasks root) e.2.ownEntries).NamesDistinct := by
    obtain ⟨es, rfl, -, hes⟩ := Shape.graph_eq_pure_iff.1 hsteps
    rw [Entries.under, hgs, Shape.declaredTasks_of_tasks hts htasks]
    refine (Checked.forall_iff_of_forall₂ (fun e s he ↦ ?_) hes).symm
    obtain ⟨n, -, -, hstep⟩ := Shape.stepEntry_eq_pure_iff.1 he
    rw [Shape.map_fst_of_step hstep]
    rfl
  constructor
  · rintro ⟨htn, hsn, hkn⟩
    rw [ht] at htn
    rw [hs] at hsn
    exact ⟨htn, hsn, hk.1 hkn⟩
  · rintro ⟨htn, hsn, hkn⟩
    refine ⟨?_, ?_, hk.2 hkn⟩
    · rwa [ht]
    · rwa [hs]

/-- The parameters of an accepted document have distinct names.  Its tasks, its steps and the
keyword arguments of each step have distinct names exactly if their keys have distinct texts, as
keys without tags do; every name then finds what it names. -/
theorem distinctNames_of_ofValue {v : Value} (h : ofValue v = .ok d) :
    (d.parameters.map Parameter.name).Nodup ∧
    (d.HasDistinctNames ↔ Shape.HasDistinctNames v.ownEntries) ∧
    (v.KeysDistinct → v.KeysUntagged → d.HasDistinctNames) ∧
    (d.HasDistinctNames → d.NamesFind) := by
  refine ⟨(areDeclarable_of_ofValue h).nodup, hasDistinctNames_iff_of_ofValue h, ?_,
    HasDistinctNames.namesFind⟩
  intro hd hu
  have hwf := isWellFormed_of_ofValue ⟨hd, hu⟩ h
  exact ⟨hwf.tasks_nodup, hwf.steps_nodup, fun s hs ↦ (hwf.steps s hs).nodup⟩

/-- A document with tags on the keys of a task, a step and a keyword argument. -/
def labelled : Value := .mapping [
  (.string "tasks", .mapping [
    (.string "fit", .mapping [(.string "plugin", .string "lab.tasks.fit")]),
    (.tagged "old" (.string "run"), .mapping [(.string "plugin", .string "lab.tasks.run")])]),
  (.string "graph", .mapping [
    (.string "train", .mapping [(.string "fit", .mapping [
      (.string "rate", .int 1), (.tagged "old" (.string "seed"), .int 7)])]),
    (.tagged "late" (.string "score"), .mapping [
      (.string "run", .null), (.string "dependencies", .string "train")])])]

/-- The theorem at a document with tagged keys of distinct texts. -/
theorem labelled_namesFind : ∃ d, ofValue labelled = .ok d ∧
    Shape.HasDistinctNames labelled.ownEntries ∧ d.HasDistinctNames ∧ d.NamesFind := by
  have hread : ofValue labelled = .ok ⟨[], [⟨"fit", "lab.tasks.fit", []⟩,
      ⟨"run", "lab.tasks.run", []⟩],
      [⟨"train", "fit", [], [("rate", .literal (.int 1)), ("seed", .literal (.int 7))], []⟩,
      ⟨"score", "run", [.literal .null], [], ["train"]⟩]⟩ := by rfl
  have hnames : Shape.HasDistinctNames labelled.ownEntries :=
    ⟨by decide, by decide, by decide⟩
  obtain ⟨-, hiff, -, hfind⟩ := distinctNames_of_ofValue hread
  exact ⟨_, hread, hnames, hiff.2 hnames, hfind (hiff.2 hnames)⟩

/-- A document in which a tag sets apart two keys of one text: of tasks, of steps and of keyword
arguments. -/
def twins : Value := .mapping [
  (.string "tasks", .mapping [
    (.string "fit", .mapping [(.string "plugin", .string "lab.tasks.fit")]),
    (.tagged "old" (.string "fit"), .mapping [(.string "plugin", .string "lab.tasks.run")])]),
  (.string "graph", .mapping [
    (.string "train", .mapping [(.string "fit", .mapping [
      (.string "rate", .int 1), (.tagged "old" (.string "rate"), .int 2)])]),
    (.tagged "old" (.string "train"), .mapping [(.string "fit", .null)])])]

/-- Its keys are distinct and it is accepted, yet names are not distinct: the first step shares its
name with another, and its name leads to the other one's node. -/
theorem twins_not_hasDistinctNames : twins.KeysDistinct ∧ ∃ d, ofValue twins = .ok d ∧
    ¬ (d.tasks.map TaskDecl.name).Nodup ∧ ¬ (d.steps.map Step.name).Nodup ∧
    (∃ s, d.steps[0]? = some s ∧ ¬ (s.kwargs.map Prod.fst).Nodup ∧
      (ofDescription d).index? s.name = some 1) := by
  have hd : twins.KeysDistinct := by
    simp [twins, Value.KeysDistinct, Value.everywhere_mapping, Value.everywhere_tagged,
      Value.ownEntries, Entries.Distinct, Value.same]
  have hread : ofValue twins = .ok ⟨[], [⟨"fit", "lab.tasks.fit", []⟩,
      ⟨"fit", "lab.tasks.run", []⟩],
      [⟨"train", "fit", [], [("rate", .literal (.int 1)), ("rate", .literal (.int 2))], []⟩,
      ⟨"train", "fit", [.literal .null], [], []⟩]⟩ := by rfl
  exact ⟨hd, _, hread, by decide, by decide, _, rfl, by decide, by decide⟩

end Description

end LabPlan
