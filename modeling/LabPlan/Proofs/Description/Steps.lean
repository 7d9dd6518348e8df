import LabPlan.Proofs.Description.Arguments
import LabPlan.Proofs.Description.Declarations

/-! # Steps

Steps that are read without problems are well formed and invoke declared tasks, in short form and
in expanded form.  A well-formed step that invokes a declared task is read from the expanded form in
which it is written, whatever the names of tasks. -/

namespace LabPlan.Shape

variable {declared : List String} {name : String}

/-! ## Invocations -/

/-- What a step invokes is declared, and its arguments are well formed. -/
structure Invocation.IsSound (declared : List String) (i : Invocation) : Prop where
  declared : i.task ∈ declared
  nodup : (i.kwargs.map Prod.fst).Nodup
  args : ∀ a ∈ i.args, a.IsWellFormed
  kwargs : ∀ k ∈ i.kwargs, k.2.IsWellFormed

/-- Positional arguments without problems are well formed, also a single one that is no list. -/
theorem isWellFormed_of_positional {v : Option Value} (hv : ∀ w, v = some w → w.HasPlainKeys)
    {as : List Argument} (h : positional name v = pure as) : ∀ a ∈ as, a.IsWellFormed := by
  cases v with
  | none =>
      obtain rfl := Checked.pure_inj.1 h
      exact List.forall_mem_nil _
  | some v =>
      have hone (w : Value) (hw : w.HasPlainKeys)
          (h : (do return [← argument name w]) = pure as) : ∀ a ∈ as, a.IsWellFormed := by
        obtain ⟨a, ha, has⟩ := Checked.bind_eq_pure_iff.1 h
        obtain rfl := Checked.pure_inj.1 has
        exact List.forall_mem_singleton.2 (isWellFormed_of_argument hw ha)
      cases v with
      | sequence vs => exact isWellFormed_of_arguments (fun _ ↦ (hv _ rfl).item) h
      | _ => exact hone _ (hv _ rfl) h

/-- The keyword arguments of a step in expanded form. -/
def keywordsIfAny (step : String) : Option Value → Checked (Option (List (String × Argument)))
  | none => pure (some [])
  | some (.mapping es) => keywords step es
  | some _ => Checked.reject (.keywordsNotMapping step)

theorem exists_of_keywordsIfAny {v : Option Value} {o : Option (List (String × Argument))}
    (h : keywordsIfAny name v = pure o) : ∃ ks, o = some ks := by
  cases v with
  | none => exact ⟨[], (Checked.pure_inj.1 h).symm⟩
  | some v =>
      cases v with
      | mapping es =>
          obtain ⟨ks, rfl, -⟩ := keywords_eq_pure_iff.1 h
          exact ⟨ks, rfl⟩
      | _ => exact absurd h Checked.reject_ne_pure

theorem isWellFormed_of_keywordsIfAny {v : Option Value} (hv : ∀ w, v = some w → w.HasPlainKeys)
    {ks : List (String × Argument)} (h : keywordsIfAny name v = pure (some ks)) :
    (ks.map Prod.fst).Nodup ∧ ∀ k ∈ ks, k.2.IsWellFormed := by
  cases v with
  | none =>
      obtain rfl := Option.some.inj (Checked.pure_inj.1 h)
      exact ⟨List.nodup_nil, List.forall_mem_nil _⟩
  | some v =>
      cases v with
      | mapping es => exact isWellFormed_of_keywords (hv _ rfl) h
      | _ => exact absurd h Checked.reject_ne_pure

/-- With a declared task, a step in expanded form is its arguments and keyword arguments. -/
theorem expanded_of_mem {spec : Entries} {task : String}
    (ht : (Entries.lookup "task" spec).bind Value.text? = some task) (hd : task ∈ declared) :
    expanded declared name spec = do
      Checked.notes ((unknownKeys stepKeys spec).map fun k ↦ .unknownStepKey k name)
      let args ← positional name (Entries.lookup "args" spec)
      let ks ← keywordsIfAny name (Entries.lookup "kwargs" spec)
      return ks.map fun ks ↦ ⟨task, args, ks⟩ := by
  have hfilter : (some task).filter declared.contains = some task :=
    Option.filter_eq_some_iff.2 ⟨rfl, List.contains_iff_mem.2 hd⟩
  simp only [expanded, ht, hfilter]
  cases Entries.lookup "kwargs" spec with
  | none => rfl
  | some v => cases v <;> rfl

/-- A step in expanded form without problems names a declared task. -/
theorem exists_task_of_expanded {spec : Entries} {o : Option Invocation}
    (h : expanded declared name spec = pure o) :
    ∃ task ∈ declared, (Entries.lookup "task" spec).bind Value.text? = some task := by
  obtain ⟨_, -, h⟩ := Checked.bind_eq_pure_iff.1 h
  cases hn : ((Entries.lookup "task" spec).bind Value.text?).filter declared.contains with
  | none =>
      simp only [hn] at h
      exact absurd h Checked.reject_ne_pure
  | some task =>
      obtain ⟨ht, hd⟩ := Option.filter_eq_some_iff.1 hn
      exact ⟨task, List.contains_iff_mem.1 hd, ht⟩

/-- A step in expanded form without problems: its keys are known, its task is declared, and its
arguments have none. -/
theorem expanded_eq_pure_iff {spec : Entries} {o : Option Invocation} :
    expanded declared name spec = pure o ↔ unknownKeys stepKeys spec = [] ∧ ∃ task args ks,
      o = some ⟨task, args, ks⟩ ∧
      (Entries.lookup "task" spec).bind Value.text? = some task ∧ task ∈ declared ∧
      positional name (Entries.lookup "args" spec) = pure args ∧
      keywordsIfAny name (Entries.lookup "kwargs" spec) = pure (some ks) := by
  constructor
  · intro h
    obtain ⟨task, hd, ht⟩ := exists_task_of_expanded h
    rw [expanded_of_mem ht hd] at h
    simp only [Checked.bind_eq_pure_iff, Checked.notes_eq_pure_iff, List.map_eq_nil_iff,
      exists_const] at h
    obtain ⟨hunknown, args, hargs, o', hks, ho⟩ := h
    obtain ⟨ks, rfl⟩ := exists_of_keywordsIfAny hks
    exact ⟨hunknown, task, args, ks, (Checked.pure_inj.1 ho).symm, ht, hd, hargs, hks⟩
  · rintro ⟨hunknown, task, args, ks, rfl, ht, hd, hargs, hks⟩
    rw [expanded_of_mem ht hd, hunknown, hargs, hks]
    rfl

theorem isSound_of_expanded {spec : Entries} {o : Option Invocation}
    (h : expanded declared name spec = pure o) :
    ∃ i, o = some i ∧ ((Value.mapping spec).HasPlainKeys → i.IsSound declared) := by
  obtain ⟨-, task, args, ks, rfl, -, hmem, hargs, hks⟩ := expanded_eq_pure_iff.1 h
  refine ⟨_, rfl, fun hspec ↦ ?_⟩
  obtain ⟨hnodup, hkwargs⟩ := isWellFormed_of_keywordsIfAny (fun _ ↦ hspec.lookup) hks
  exact ⟨hmem, hnodup, isWellFormed_of_positional (fun _ ↦ hspec.lookup) hargs, hkwargs⟩

/-- What is invoked in short form without problems is sound, in each of the forms that it can have.
-/
theorem isSound_of_invocation {task : String} (ht : task ∈ declared) {v : Value}
    {o : Option Invocation} (h : invocation name task v = pure o) :
    ∃ i, o = some i ∧ (v.HasPlainKeys → i.IsSound declared) := by
  have hargs (as : List Argument) (has : ∀ a ∈ as, a.IsWellFormed) :
      Invocation.IsSound declared ⟨task, as, []⟩ :=
    ⟨ht, List.nodup_nil, has, List.forall_mem_nil _⟩
  have hone (w : Value) (h : (do return some ⟨task, [← argument name w], []⟩) = pure o) :
      ∃ i, o = some i ∧ (w.HasPlainKeys → i.IsSound declared) := by
    obtain ⟨a, ha, ho⟩ := Checked.bind_eq_pure_iff.1 h
    obtain rfl := Checked.pure_inj.1 ho
    refine ⟨_, rfl, fun hw ↦ hargs _ ?_⟩
    exact List.forall_mem_singleton.2 (isWellFormed_of_argument hw ha)
  cases v with
  | sequence vs =>
      obtain ⟨as, has, ho⟩ := Checked.bind_eq_pure_iff.1 h
      obtain rfl := Checked.pure_inj.1 ho
      exact ⟨_, rfl, fun hv ↦ hargs as (isWellFormed_of_arguments (fun _ ↦ hv.item) has)⟩
  | mapping es =>
      obtain ⟨k, hk, ho⟩ := Checked.bind_eq_pure_iff.1 h
      obtain ⟨ks, rfl, -⟩ := keywords_eq_pure_iff.1 hk
      obtain rfl := Checked.pure_inj.1 ho
      refine ⟨_, rfl, fun hv ↦ ?_⟩
      obtain ⟨hnodup, hks⟩ := isWellFormed_of_keywords hv hk
      exact ⟨ht, hnodup, List.forall_mem_nil _, hks⟩
  | _ => exact hone _ h

/-- A step in short form without problems invokes what is sound. -/
theorem isSound_of_shorthand {spec : Entries} {o : Option Invocation}
    (h : shorthand declared name spec = pure o) :
    ∃ i, o = some i ∧ ((Value.mapping spec).HasPlainKeys → i.IsSound declared) := by
  rw [shorthand] at h
  split at h
  · rename_i key v hfilter
    split at h
    · rename_i task htask
      have hmem : (key, v) ∈ spec := List.mem_of_mem_filter (hfilter ▸ List.mem_singleton_self _)
      have ht := (Option.filter_eq_some_iff.1 htask).2
      obtain ⟨i, rfl, hi⟩ := isSound_of_invocation (List.contains_iff_mem.1 ht) h
      exact ⟨i, rfl, fun hspec ↦ hi (hspec.value hmem)⟩
    · exact absurd h Checked.reject_ne_pure
  · exact absurd h Checked.reject_ne_pure

/-! ## Steps -/

/-- A step is read without problems if its parts are. -/
theorem step_mapping_eq_pure_iff {spec : Entries} {o : Option Step} :
    step declared name (.mapping spec) = pure o ↔ stepParts declared name spec = pure o := by
  simp only [step, Checked.eq_pure_iff, List.isEmpty_iff]
  refine and_congr_right fun h ↦ ?_
  rw [if_pos h]

/-- The invocation of a step, in the form that it has. -/
def invocationOf (declared : List String) (name : String) (spec : Entries) :
    Checked (Option Invocation) :=
  if isExpanded declared spec then expanded declared name spec else shorthand declared name spec

theorem stepParts_eq_pure_iff {spec : Entries} {o : Option Step} :
    stepParts declared name spec = pure o ↔ ∃ i deps,
      invocationOf declared name spec = pure i ∧
      dependencies name (Entries.lookup "dependencies" spec) = pure deps ∧
      o = i.map fun i ↦ ⟨name, i.task, i.args, i.kwargs, deps⟩ := by
  have hparts : stepParts declared name spec = do
      let i ← invocationOf declared name spec
      let deps ← dependencies name (Entries.lookup "dependencies" spec)
      return i.map fun i ↦ ⟨name, i.task, i.args, i.kwargs, deps⟩ := by
    rw [stepParts, invocationOf]
    split <;> rfl
  simp only [hparts, Checked.bind_eq_pure_iff, Checked.pure_inj]
  constructor
  · rintro ⟨i, hi, deps, hdeps, rfl⟩
    exact ⟨i, deps, hi, hdeps, rfl⟩
  · rintro ⟨i, deps, hi, hdeps, rfl⟩
    exact ⟨i, hi, deps, hdeps, rfl⟩

theorem isSound_of_invocationOf {spec : Entries} {o : Option Invocation}
    (h : invocationOf declared name spec = pure o) :
    ∃ i, o = some i ∧ ((Value.mapping spec).HasPlainKeys → i.IsSound declared) := by
  rw [invocationOf] at h
  split at h
  · exact isSound_of_expanded h
  · exact isSound_of_shorthand h

/-- A step that is read without problems is well formed and invokes a declared task. -/
theorem isWellFormed_of_step {v : Value} {o : Option Step} (h : step declared name v = pure o) :
    ∃ s, o = some s ∧ s.name = name ∧
      (v.HasPlainKeys → s.task ∈ declared ∧ s.IsWellFormed) := by
  cases v with
  | mapping spec =>
      rw [step_mapping_eq_pure_iff, stepParts_eq_pure_iff] at h
      obtain ⟨i, deps, hi, -, rfl⟩ := h
      obtain ⟨i, rfl, hsound⟩ := isSound_of_invocationOf hi
      refine ⟨_, rfl, rfl, fun hv ↦ ?_⟩
      obtain ⟨hmem, hnodup, hargs, hkwargs⟩ := hsound hv
      exact ⟨hmem, hnodup, hargs, hkwargs⟩
  | _ => exact absurd h Checked.reject_ne_pure

/-- A task that is declared is invoked in expanded form, whatever other tasks are called. -/
theorem isExpanded_of_mem {spec : Entries} {task : String}
    (ht : Entries.lookup "task" spec = some (.string task)) (hd : task ∈ declared) :
    isExpanded declared spec = true := by
  simp [isExpanded, ht, hd]

theorem dependencies_ofStrings (names : List String) :
    dependencies name (some (.ofStrings names)) = pure names := by
  simp only [dependencies, Value.ofStrings, Value.mapM_text?_map_string]

/-- A well-formed step of a declared task is read from its expanded form. -/
theorem step_toValue {s : Step} (hd : s.task ∈ declared) (h : s.IsWellFormed) :
    step declared s.name s.toValue = pure (some s) := by
  obtain ⟨name, task, args, ks, deps⟩ := s
  refine step_mapping_eq_pure_iff.2 (stepParts_eq_pure_iff.2
    ⟨some ⟨task, args, ks⟩, deps, ?_, dependencies_ofStrings deps, rfl⟩)
  rw [invocationOf, if_pos (isExpanded_of_mem rfl hd)]
  exact expanded_eq_pure_iff.2 ⟨rfl, task, args, ks, rfl, rfl, hd, arguments_toValue h.args,
    keywords_toValue h.kwargs⟩

/-! ## The graph -/

/-- An entry of the graph without problems is a step under a name without dots. -/
theorem stepEntry_eq_pure_iff {e : Value × Value} {o : Option Step} :
    stepEntry declared e = pure o ↔ ∃ name, e.1.text? = some name ∧ IsUndotted name ∧
      step declared name e.2 = pure o := by
  rw [stepEntry]
  cases e.1.text? with
  | none => exact iff_of_false Checked.reject_ne_pure (by simp)
  | some name =>
      simp only [Option.some.injEq, exists_eq_left', IsUndotted, List.contains_iff_mem]
      split
      · rename_i h
        exact iff_of_false Checked.reject_ne_pure fun hs ↦ hs.1 h
      · rename_i h
        exact (and_iff_right h).symm

theorem readsSection_graph :
    ReadsSection (graph declared) (stepEntry declared) .graphNotMapping where
  entries := fun _ _ ↦ rfl
  other := by
    intro v hv
    cases v with
    | mapping es =>
        cases es with
        | nil => rfl
        | cons e es => exact absurd rfl (hv e es)
    | _ => rfl

/-- Steps without problems: one step for each entry, and at least one. -/
theorem graph_eq_pure_iff {v : Value} {ss : List Step} :
    graph declared v = pure ss ↔ ∃ es, v = .mapping es ∧ es ≠ [] ∧
      List.Forall₂ (fun e s ↦ stepEntry declared e = pure (some s)) es ss := by
  refine readsSection_graph.eq_pure_iff fun e h ↦ ?_
  obtain ⟨name, -, -, hstep⟩ := stepEntry_eq_pure_iff.1 h
  obtain ⟨s, hs, -⟩ := isWellFormed_of_step hstep
  cases hs

theorem isWellFormed_of_stepEntry {e : Value × Value} {s : Step}
    (h : stepEntry declared e = pure (some s)) : e.1.text? = some s.name ∧ IsUndotted s.name ∧
      (e.2.HasPlainKeys → s.task ∈ declared ∧ s.IsWellFormed) := by
  obtain ⟨name, hname, hdot, hstep⟩ := stepEntry_eq_pure_iff.1 h
  obtain ⟨t, ht, rfl, hwf⟩ := isWellFormed_of_step hstep
  obtain rfl := Option.some.inj ht
  exact ⟨hname, hdot, hwf⟩

/-- Steps read from a mapping are well formed, and at least one of them is there. -/
theorem isWellFormed_of_graph {v : Value} (hv : v.HasPlainKeys) {ss : List Step}
    (h : graph declared v = pure ss) : ss ≠ [] ∧ (ss.map Step.name).Nodup ∧
      ∀ s ∈ ss, IsUndotted s.name ∧ s.task ∈ declared ∧ s.IsWellFormed := by
  obtain ⟨es, rfl, hne, hes⟩ := graph_eq_pure_iff.1 h
  refine ⟨?_, hv.nodup (hes.imp fun _ _ he ↦ (isWellFormed_of_stepEntry he).1), fun s hs ↦ ?_⟩
  · rintro rfl
    exact hne (List.forall₂_nil_right_iff.1 hes)
  · obtain ⟨e, he, hes⟩ := Checked.exists_of_forall₂ hes hs
    obtain ⟨-, hdot, hwf⟩ := isWellFormed_of_stepEntry hes
    exact ⟨hdot, hwf (hv.value he)⟩

/-- Well-formed steps of declared tasks, at least one, are read from what they are written as. -/
theorem graph_toValue {ss : List Step} (hne : ss ≠ []) (hdot : ∀ s ∈ ss, IsUndotted s.name)
    (hd : ∀ s ∈ ss, s.task ∈ declared) (h : ∀ s ∈ ss, s.IsWellFormed) :
    graph declared (.mapping (ss.map fun s ↦ (.string s.name, s.toValue))) = pure ss := by
  refine graph_eq_pure_iff.2 ⟨_, rfl, by simpa using hne, ?_⟩
  rw [List.forall₂_map_left_iff, List.forall₂_same]
  exact fun s hs ↦ stepEntry_eq_pure_iff.2
    ⟨s.name, rfl, hdot s hs, step_toValue (hd s hs) (h s hs)⟩

end LabPlan.Shape
