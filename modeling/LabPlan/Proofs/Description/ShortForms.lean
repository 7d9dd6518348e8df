import LabPlan.Proofs.Description.Keys

/-! # Short forms

A short form is read like the long form that it stands for, down to the problems that are found in
it.  One lemma says which sections of a document have to be read alike; each short form then only
has to be compared with its long form where it stands. -/

namespace LabPlan

namespace Entries

variable {es fs : Entries} {name : String}

/-- The same entries, but for the value under a name, where two related ones may stand. -/
abbrev DifferAt (name : String) (R : Value → Value → Prop) (es fs : Entries) : Prop :=
  Paired (fun k v w ↦ v = w ∨ k = .string name ∧ R v w) es fs

namespace DifferAt

variable {R : Value → Value → Prop}

/-- What cannot tell the values under the name apart cannot tell the mappings apart. -/
theorem congr_lookup (h : DifferAt name R es fs) (n : String) {α : Type} (f : Option Value → α)
    (hf : n = name → ∀ v w, R v w → f (some v) = f (some w)) :
    f (lookup n es) = f (lookup n fs) := by
  have hrel := h.lookup n
  generalize lookup n es = v at hrel
  generalize lookup n fs = w at hrel
  cases hrel with
  | none => rfl
  | some h =>
      obtain rfl | ⟨hn, h⟩ := h
      · rfl
      · exact hf (Value.string.inj hn) _ _ h

theorem lookup_eq (h : DifferAt name R es fs) {n : String} (hn : n ≠ name) :
    lookup n es = lookup n fs := h.congr_lookup n id fun heq ↦ absurd heq hn

theorem isNone_lookup (h : DifferAt name R es fs) (n : String) :
    (lookup n es).isNone = (lookup n fs).isNone := h.congr_lookup n _ fun _ _ _ _ ↦ rfl

/-- The entries under other names are the same. -/
theorem filter_eq (h : DifferAt name R es fs) {p : Value → Bool} (hp : p (.string name) = false) :
    (es.filter fun e ↦ p e.1) = fs.filter fun e ↦ p e.1 := by
  induction h with
  | nil => rfl
  | @cons e f es fs hef _ ih =>
      obtain ⟨k, v⟩ := e
      obtain ⟨l, w⟩ := f
      obtain ⟨rfl, rfl | ⟨rfl, -⟩⟩ := hef
      · rw [List.filter_cons, List.filter_cons, ih]
      · simp only [List.filter_cons, hp, Bool.false_eq_true, if_false, ih]

end DifferAt

end Entries

theorem Value.AtKey.exists_differAt {name : String} {R : Value → Value → Prop} {v w : Value}
    (h : AtName name R v w) :
    ∃ es fs, v = mapping es ∧ w = mapping fs ∧ Entries.DifferAt name R es fs := h.exists_paired

namespace Shape

open Value

variable {declared : List String} {name : String} {v w : Value} {R : Value → Value → Prop}

/-! ## Documents that differ in one section -/

/-- Two values of a section are read alike, given the names of the tasks. -/
def ReadAlike (declared : List String) (name : String) (v w : Value) : Prop :=
  match name with
  | "parameters" => parameters v = parameters w
  | "tasks" => tasks v = tasks w ∧ v.entryNames = w.entryNames
  | "graph" => graph declared v = graph declared w
  | _ => True

theorem document_congr {root root' : Entries} (h : Entries.DifferAt name R root root')
    (hR : ∀ v w, R v w → ReadAlike (declaredTasks root) name v w) :
    document root = document root' := by
  have hmissing : (["tasks", "graph"].filter fun s ↦ (Entries.lookup s root).isNone) =
      ["tasks", "graph"].filter fun s ↦ (Entries.lookup s root').isNone :=
    List.filter_congr fun s _ ↦ h.isNone_lookup s
  have hparameters : optional parameters (Entries.lookup "parameters" root) =
      optional parameters (Entries.lookup "parameters" root') := by
    refine h.congr_lookup _ _ ?_
    rintro rfl v w hvw
    exact hR v w hvw
  have htasks : optional tasks (Entries.lookup "tasks" root) =
      optional tasks (Entries.lookup "tasks" root') := by
    refine h.congr_lookup _ _ ?_
    rintro rfl v w hvw
    exact (hR v w hvw).1
  have hdeclared : declaredTasks root = declaredTasks root' := by
    rw [declaredTasks_eq, declaredTasks_eq]
    refine h.congr_lookup _ (fun o ↦ o.elim [] Value.entryNames) ?_
    rintro rfl v w hvw
    exact (hR v w hvw).2
  have hgraph : optional (graph (declaredTasks root)) (Entries.lookup "graph" root) =
      optional (graph (declaredTasks root)) (Entries.lookup "graph" root') := by
    refine h.congr_lookup _ _ ?_
    rintro rfl v w hvw
    exact hR v w hvw
  rw [document, document, h.keys_eq, hmissing, hparameters, htasks, hgraph, hdeclared]

/-- Documents with different values of one section hold the same if these are read alike. -/
theorem ofValue_congr (h : AtName name R v w)
    (hR : ∀ root, v = .mapping root → ∀ v w, R v w → ReadAlike (declaredTasks root) name v w) :
    Description.ofValue v = Description.ofValue w := by
  obtain ⟨root, root', rfl, rfl, hd⟩ := h.exists_differAt
  exact congrArg Checked.toExcept (document_congr hd (hR root rfl))

/-! ## Sections that differ in one entry -/

/-- A section is read alike if the entries in which it differs are. -/
theorem ReadsSection.congr_atAny {α : Type} {read : Value → Checked (List α)}
    {entry : Value × Value → Checked (Option α)} {p : Problem} (hread : ReadsSection read entry p)
    (h : AtAny R v w) (hR : ∀ v w, R v w → ∀ k, entry (k, v) = entry (k, w)) :
    read v = read w := by
  obtain ⟨es, fs, rfl, rfl, hp⟩ := h.exists_paired
  refine hread.congr (hp.imp ?_)
  rintro ⟨k, v⟩ ⟨l, w⟩ ⟨rfl, hvw⟩
  obtain rfl | ⟨-, hvw⟩ := hvw
  · exact ⟨rfl, rfl⟩
  · exact ⟨rfl, hR v w hvw k⟩

theorem entryNames_eq_of_atAny (h : AtAny R v w) : v.entryNames = w.entryNames := by
  obtain ⟨es, fs, rfl, rfl, hp⟩ := h.exists_paired
  exact hp.names_eq

/-! ## Names -/

theorem parameters_of_bareNames (h : BareNames v w) : parameters v = parameters w := by
  obtain @⟨names, -⟩ := h
  show parameterNames [] _ = parameterEntries [] _
  rw [parameterNames_eq, List.map_map]
  rfl

theorem task_of_singleName (h : AtName "outputs" SingleName v w) (name : String) :
    task name v = task name w := by
  obtain ⟨es, fs, rfl, rfl, hd⟩ := h.exists_differAt
  have houtputs : outputsIfAny name (Entries.lookup "outputs" es) =
      outputsIfAny name (Entries.lookup "outputs" fs) := by
    refine hd.congr_lookup _ _ ?_
    rintro - _ _ ⟨s⟩
    rfl
  rw [task_mapping, task_mapping, unknownKeys, unknownKeys, hd.keys_eq, houtputs,
    hd.lookup_eq (show "plugin" ≠ "outputs" by decide)]

/-! ## Dependencies -/

/-- The form of a step and its invocation do not depend on its dependencies. -/
theorem step_of_singleName (h : AtName "dependencies" SingleName v w) (name : String) :
    step declared name v = step declared name w := by
  obtain ⟨es, fs, rfl, rfl, hd⟩ := h.exists_differAt
  have hdeps : dependencies name (Entries.lookup "dependencies" es) =
      dependencies name (Entries.lookup "dependencies" fs) := by
    refine hd.congr_lookup _ _ ?_
    rintro - _ _ ⟨s⟩
    rfl
  have htask := hd.lookup_eq (show "task" ≠ "dependencies" by decide)
  have hform : isExpanded declared es = isExpanded declared fs := by
    rw [isExpanded, isExpanded, htask]
  have hexpanded : expanded declared name es = expanded declared name fs := by
    rw [expanded, expanded, hd.keys_eq, htask,
      hd.lookup_eq (show "args" ≠ "dependencies" by decide),
      hd.lookup_eq (show "kwargs" ≠ "dependencies" by decide)]
  have hshorthand : shorthand declared name es = shorthand declared name fs := by
    have hrest : (es.filter fun e ↦ !readsAs ["dependencies"] e.1) =
        fs.filter fun e ↦ !readsAs ["dependencies"] e.1 :=
      hd.filter_eq (p := fun k ↦ !readsAs ["dependencies"] k) rfl
    rw [shorthand, shorthand, hrest]
  rw [step, step, stepParts, stepParts, hform, hexpanded, hshorthand, hdeps]

/-! ## Invocations -/

theorem readsAs_iff {names : List String} {k : Value} :
    readsAs names k = true ↔ ∃ s ∈ names, k.text? = some s := by
  rw [readsAs]
  cases k.text? with
  | none => simp
  | some s => simp

/-- Dependencies have no bearing on what is found under another name. -/
theorem lookup_filter_dependencies {n : String} (hn : n ≠ "dependencies") (spec : Entries) :
    Entries.lookup n (spec.filter fun e ↦ !readsAs ["dependencies"] e.1) =
      Entries.lookup n spec := by
  refine Entries.lookup_filter (fun v ↦ ?_) spec
  simpa [readsAs] using hn

section Forms

variable {t : String} {spec : Entries}

/-- The only entry of a step besides its dependencies makes it a step in short form, unless the task
is called `task` and invoked with the name of a task. -/
theorem isExpanded_eq_false (ht : t ∈ declared)
    (hv : t = "task" → ∀ s, v = .string s → s ∉ declared)
    (hshort : (spec.filter fun e ↦ !readsAs ["dependencies"] e.1) = [(.string t, v)]) :
    isExpanded declared spec = false := by
  have hlookup : Entries.lookup "task" spec = if (string t).isKey "task" then some v else none := by
    rw [← lookup_filter_dependencies (by decide), hshort]
    rfl
  rw [isExpanded, hlookup]
  by_cases hkey : t = "task"
  · subst hkey
    rw [if_pos (isKey_iff.2 rfl)]
    cases v with
    | string s => simp [ht, hv rfl s rfl]
    | _ => simp [ht]
  · rw [if_neg fun h ↦ hkey (string.inj (isKey_iff.1 h))]

theorem shorthand_eq_invocation (ht : t ∈ declared)
    (hshort : (spec.filter fun e ↦ !readsAs ["dependencies"] e.1) = [(.string t, v)]) :
    shorthand declared name spec = invocation name t v := by
  have hfilter : (string t).text?.filter declared.contains = some t :=
    Option.filter_eq_some_iff.2 ⟨rfl, List.contains_iff_mem.2 ht⟩
  simp only [shorthand, hshort, hfilter]

/-- The two entries of a step in expanded form. -/
def longEntries (t : String) (v : Value) : Entries :=
  [(.string "task", .string t), (.string (argumentsKey v), v)]

theorem argumentsKey_cases (v : Value) : argumentsKey v = "args" ∨ argumentsKey v = "kwargs" := by
  cases v with
  | mapping es => exact .inr rfl
  | _ => exact .inl rfl

theorem namesDistinct_longEntries (t : String) (v : Value) : (longEntries t v).NamesDistinct := by
  show ["task", argumentsKey v].Nodup
  obtain h | h := argumentsKey_cases v
  · rw [h]
    decide
  · rw [h]
    decide

/-- An invocation in short form is one with the positional and the keyword arguments of the long
form, one of which is missing there. -/
theorem invocation_eq (name t : String) (v : Value) : invocation name t v = do
    let args ← positional name (Entries.lookup "args" (longEntries t v))
    let ks ← keywordsIfAny name (Entries.lookup "kwargs" (longEntries t v))
    return ks.map fun ks ↦ ⟨t, args, ks⟩ := by
  have hone (w : Value) (h : invocation name t w = do return some ⟨t, [← argument name w], []⟩) :
      invocation name t w = do
        let args ← (do return [← argument name w] : Checked (List Argument))
        let ks ← (pure (some []) : Checked (Option (List (String × Argument))))
        return ks.map fun ks ↦ ⟨t, args, ks⟩ := by
    rw [h]
    simp only [bind_assoc, pure_bind, Option.map_some]
  cases v with
  | sequence items => rfl
  | mapping es => rfl
  | _ => exact hone _ rfl

/-- In expanded form a step has known keys only. -/
theorem unknownKeys_eq_nil
    (hlong : (spec.filter fun e ↦ !readsAs ["dependencies"] e.1).Perm (longEntries t v)) :
    unknownKeys stepKeys spec = [] := by
  have hknown (e : Value × Value) (he : e ∈ spec) : readsAs stepKeys e.1 = true := by
    cases hdeps : readsAs ["dependencies"] e.1 with
    | true =>
        obtain ⟨s, hs, htext⟩ := readsAs_iff.1 hdeps
        obtain rfl := List.mem_singleton.1 hs
        exact readsAs_iff.2 ⟨_, by decide, htext⟩
    | false =>
        have hmem : e ∈ longEntries t v :=
          hlong.mem_iff.1 (List.mem_filter.2 ⟨he, congrArg (!·) hdeps⟩)
        obtain rfl | hmem := List.mem_cons.1 hmem
        · rfl
        · obtain rfl := List.mem_singleton.1 hmem
          refine readsAs_iff.2 ⟨argumentsKey v, ?_, rfl⟩
          obtain h | h := argumentsKey_cases v
          · exact h ▸ by decide
          · exact h ▸ by decide
  rw [unknownKeys_eq, Entries.keys, List.map_eq_nil_iff, List.filter_eq_nil_iff]
  intro e he
  simp [hknown e he]

theorem expanded_eq_invocation (name : String) (ht : t ∈ declared)
    (hlong : (spec.filter fun e ↦ !readsAs ["dependencies"] e.1).Perm (longEntries t v)) :
    isExpanded declared spec = true ∧ expanded declared name spec = invocation name t v := by
  have hlookup {n : String} (hn : n ≠ "dependencies") :
      Entries.lookup n spec = Entries.lookup n (longEntries t v) := by
    rw [← lookup_filter_dependencies hn]
    exact (Entries.lookup_eq_of_perm (namesDistinct_longEntries t v) hlong.symm n).symm
  have htask : Entries.lookup "task" spec = some (.string t) := hlookup (by decide)
  refine ⟨isExpanded_of_mem htask ht, ?_⟩
  rw [expanded_of_mem (congrArg (·.bind text?) htask) ht, unknownKeys_eq_nil hlong,
    hlookup (by decide), hlookup (by decide), invocation_eq]
  rfl

end Forms

/-- Both forms of a step have the same dependencies and the same invocation. -/
theorem step_of_shortStep (h : ShortStep declared v w) (name : String) :
    step declared name v = step declared name w := by
  obtain @⟨t, v, spec, spec', ht, hd, hv, hshort, hlong, hrest⟩ := h
  obtain ⟨hform, hexpanded⟩ := expanded_eq_invocation name ht hlong
  have hdeps : Entries.lookup "dependencies" spec = Entries.lookup "dependencies" spec' := by
    have hown (es : Entries) : Entries.lookup "dependencies"
        (es.filter fun e ↦ readsAs ["dependencies"] e.1) = Entries.lookup "dependencies" es :=
      Entries.lookup_filter (fun _ ↦ rfl) es
    rw [← hown spec, ← hrest, hown]
  rw [step, step, stepParts, stepParts, hform, isExpanded_eq_false ht hv hshort, hexpanded,
    if_pos rfl, if_neg Bool.false_ne_true, shorthand_eq_invocation ht hshort, hdeps]

/-! ## Sections -/

theorem tasks_of_singleName (h : AtAny (AtName "outputs" SingleName) v w) :
    ReadAlike declared "tasks" v w :=
  ⟨readsSection_tasks.congr_atAny h fun _ _ h k ↦ taskEntry_congr (task_of_singleName h) k,
    entryNames_eq_of_atAny h⟩

theorem graph_of_singleName (h : AtAny (AtName "dependencies" SingleName) v w) :
    graph declared v = graph declared w :=
  readsSection_graph.congr_atAny h fun _ _ h k ↦ stepEntry_congr (step_of_singleName h) k

theorem graph_of_shortStep (h : AtAny (ShortStep declared) v w) :
    graph declared v = graph declared w :=
  readsSection_graph.congr_atAny h fun _ _ h k ↦ stepEntry_congr (step_of_shortStep h) k

end Shape

namespace Description

/-- A document in which a short form is written out holds the same description, or has the same
problems in the same order. -/
theorem ofValue_of_writesOut {v w : Value} (h : Shape.WritesOut v w) : ofValue w = ofValue v := by
  symm
  cases h with
  | parameters h => exact Shape.ofValue_congr h fun _ _ _ _ ↦ Shape.parameters_of_bareNames
  | outputs h => exact Shape.ofValue_congr h fun _ _ _ _ ↦ Shape.tasks_of_singleName
  | dependencies h => exact Shape.ofValue_congr h fun _ _ _ _ ↦ Shape.graph_of_singleName
  | step h =>
      refine Shape.ofValue_congr h fun root' heq v w ↦ ?_
      obtain rfl := Value.mapping.inj heq
      exact Shape.graph_of_shortStep

/-- A document in which the only task is called `task`, with a step. -/
def invoking (step : Value) : Value := .mapping [
  (.string "tasks", .mapping [
    (.string "task", .mapping [(.string "plugin", .string "lab.tasks.run")])]),
  (.string "graph", .mapping [(.string "train", step)])]

/-- A step that invokes the task in short form. -/
def shortInvocation : Value := .mapping [
  (.string "task", .string "$seed"), (.string "dependencies", .string "load")]

/-- The step in expanded form. -/
def longInvocation : Value := .mapping [
  (.string "task", .string "task"), (.string "args", .string "$seed"),
  (.string "dependencies", .string "load")]

/-- The theorem at a step of a task that is called like a key of steps. -/
theorem invoking_read : Shape.WritesOut (invoking shortInvocation) (invoking longInvocation) ∧
    ∃ d, ofValue (invoking longInvocation) = .ok d ∧ ofValue (invoking shortInvocation) = .ok d ∧
      d.steps.map Step.task = ["task"] := by
  have hstep : Shape.ShortStep ["task"] shortInvocation longInvocation := by
    refine .mk (t := "task") (by decide) (by decide) ?_ rfl (.refl _) rfl
    rintro - s hs
    obtain rfl := Value.string.inj hs
    decide
  have hwrites : Shape.WritesOut (invoking shortInvocation) (invoking longInvocation) :=
    .step (.mk [_] [] rfl (.mk [] [] trivial hstep))
  have hread : ofValue (invoking shortInvocation) = .ok ⟨[],
      [⟨"task", "lab.tasks.run", []⟩],
      [⟨"train", "task", [.reference ⟨"seed", none⟩], [], ["load"]⟩]⟩ := by rfl
  exact ⟨hwrites, _, (ofValue_of_writesOut hwrites).trans hread, hread, rfl⟩

end Description

end LabPlan
