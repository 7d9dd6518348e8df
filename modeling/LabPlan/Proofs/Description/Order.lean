import LabPlan.Proofs.Description.Rendering
import LabPlan.Proofs.Entries

/-! # Readings up to order

Where names are distinct, each entry of a section is read on its own.  When the entries come in
another order the same things are read and the same problems are found, in another order. -/

namespace LabPlan

namespace Checked

variable {α β γ δ : Type}

/-- The same problems up to their order, and related results. -/
structure UpToOrder (R : α → β → Prop) (c : Checked α) (d : Checked β) : Prop where
  problems : c.problems.Perm d.problems
  result : R c.result d.result

namespace UpToOrder

variable {R : α → β → Prop} {S : γ → δ → Prop} {c : Checked α} {d : Checked β}

theorem refl (c : Checked (List α)) : UpToOrder List.Perm c c := ⟨.refl _, .refl _⟩

theorem pure {a : α} {b : β} (h : R a b) :
    UpToOrder R (Pure.pure a : Checked α) (Pure.pure b) := ⟨.nil, h⟩

theorem notes {ps qs : List Problem} (h : ps.Perm qs) :
    UpToOrder (fun _ _ ↦ True) (Checked.notes ps) (Checked.notes qs) := ⟨h, trivial⟩

/-- Going on with related results keeps readings the same up to order. -/
theorem bind (h : UpToOrder R c d) {f : α → Checked γ} {g : β → Checked δ}
    (hf : ∀ a b, R a b → UpToOrder S (f a) (g b)) : UpToOrder S (c >>= f) (d >>= g) where
  problems := h.problems.append (hf _ _ h.result).problems
  result := (hf _ _ h.result).result

theorem forEach (f : α → Checked β) {as as' : List α} (h : as.Perm as') :
    UpToOrder List.Perm (Checked.forEach f as) (Checked.forEach f as') where
  problems := by
    rw [problems_forEach, problems_forEach]
    exact h.flatMap_right _
  result := by
    rw [result_forEach, result_forEach]
    exact h.map _

/-- Two readings that are the same up to order succeed together or fail together. -/
theorem toExcept (h : UpToOrder R c d) :
    (∃ a b, c.toExcept = .ok a ∧ d.toExcept = .ok b ∧ R a b) ∨
      ∃ ps qs, c.toExcept = .error ps ∧ d.toExcept = .error qs ∧ ps.Perm qs := by
  rw [Checked.toExcept, Checked.toExcept, h.problems.isEmpty_eq]
  split
  · exact .inl ⟨_, _, rfl, rfl, h.result⟩
  · exact .inr ⟨_, _, rfl, rfl, h.problems⟩

end UpToOrder

end Checked

/-- The same parameters, tasks and steps, perhaps in another order. -/
structure Description.SameParts (d e : Description) : Prop where
  parameters : d.parameters.Perm e.parameters
  tasks : d.tasks.Perm e.tasks
  steps : d.steps.Perm e.steps

namespace Value

/-- The two values are one, or mappings with the same entries in another order; the names of the
entries are distinct. -/
structure IsArranged (v w : Value) : Prop where
  distinct : v.ownEntries.NamesDistinct
  order : v = w ∨ Permuted v w

/-- The names of the entries of a mapping, also of one with tags. -/
def entryNames (v : Value) : List String := v.entries?.elim [] Entries.names

theorem Permuted.entryNames_perm {v w : Value} (h : Permuted v w) :
    v.entryNames.Perm w.entryNames := by
  induction h with
  | mk h => exact Entries.names_perm h
  | tagged _ ih => exact ih

theorem IsArranged.entryNames_perm {v w : Value} (h : v.IsArranged w) :
    v.entryNames.Perm w.entryNames := by
  obtain ⟨-, rfl | h⟩ := h
  · exact .refl _
  · exact h.entryNames_perm

end Value

namespace Shape

/-! ## Sections -/

theorem declare_of_notMem {seen : List String} {name : String} (h : name ∉ seen) :
    declare seen name = declare [] name := by
  simp [declare, h]

/-- Where names are distinct and new, each parameter is read as if it were alone. -/
theorem parameterEntries_eq_forEach {seen : List String} {es : Entries} (hd : es.NamesDistinct)
    (hnew : ∀ s ∈ Entries.names es, s ∉ seen) : parameterEntries seen es = do
      let found ← Checked.forEach (fun e ↦ parameterEntries [] [e]) es
      return found.flatten := by
  -- The names seen grow along the entries; that the rest is new among them is what distinct names
  -- give.
  induction es generalizing seen with
  | nil => rfl
  | cons e es ih =>
      obtain ⟨k, v⟩ := e
      rw [parameterEntries, Checked.forEach, parameterEntries]
      cases hk : k.text? with
      | none =>
          have hnames : Entries.names ((k, v) :: es) = Entries.names es :=
            List.filterMap_cons_none hk
          rw [ih hd.tail (hnames ▸ hnew)]
          simp [parameterEntries]
      | some name =>
          rw [Entries.names_cons_of_text? hk] at hnew
          obtain ⟨hname, hnew⟩ := List.forall_mem_cons.1 hnew
          have hnew' : ∀ s ∈ Entries.names es, s ∉ name :: seen := by
            intro s hs hmem
            rcases List.mem_cons.1 hmem with rfl | hmem
            · exact hd.head_notMem hk hs
            · exact hnew s hs hmem
          simp only [declare_of_notMem hname, bind_assoc]
          refine bind_congr fun b ↦ ?_
          cases b with
          | true => simp [ih hd.tail hnew', parameterEntries]
          | false => simp [ih hd.tail hnew, parameterEntries]

theorem parameters_upToOrder {v w : Value} (h : v.IsArranged w) :
    Checked.UpToOrder List.Perm (parameters v) (parameters w) := by
  obtain ⟨hd, rfl | h⟩ := h
  · exact .refl _
  · cases h with
    | @mk es fs h =>
        have hnew (es : Entries) : ∀ s ∈ Entries.names es, s ∉ ([] : List String) :=
          fun _ _ ↦ List.not_mem_nil
        have hes : es.NamesDistinct := hd
        show Checked.UpToOrder List.Perm (parameterEntries [] es) (parameterEntries [] fs)
        rw [parameterEntries_eq_forEach hes (hnew es),
          parameterEntries_eq_forEach (hes.perm h) (hnew fs)]
        exact (Checked.UpToOrder.forEach _ h).bind fun _ _ h ↦ .pure h.flatten
    | tagged h => exact .refl _

/-- A section that is read entry by entry gives the same in any order of its entries. -/
theorem ReadsSection.upToOrder {α : Type} {read : Value → Checked (List α)}
    {entry : Value × Value → Checked (Option α)} {p : Problem} (hread : ReadsSection read entry p)
    {v w : Value} (h : v.IsArranged w) : Checked.UpToOrder List.Perm (read v) (read w) := by
  obtain ⟨-, rfl | h⟩ := h
  · exact .refl _
  · cases h with
    | @mk es fs h =>
        cases es with
        | nil =>
            obtain rfl := h.nil_eq
            exact .refl _
        | cons e es =>
            have hne : fs ≠ [] := by
              rintro rfl
              exact List.cons_ne_nil e es h.eq_nil
            obtain ⟨f, fs, rfl⟩ := List.exists_cons_of_ne_nil hne
            rw [hread.entries, hread.entries]
            exact (Checked.UpToOrder.forEach entry h).bind fun _ _ h ↦ .pure (h.filterMap id)
    | tagged h =>
        rw [hread.other _ fun _ _ ↦ Value.noConfusion, hread.other _ fun _ _ ↦ Value.noConfusion]
        exact .refl _

/-- Of the declared tasks only the set of their names matters. -/
theorem stepEntry_eq_of_mem_iff {declared declared' : List String}
    (h : ∀ s, s ∈ declared ↔ s ∈ declared') : stepEntry declared = stepEntry declared' := by
  have hc : declared.contains = declared'.contains := by
    funext s
    rw [Bool.eq_iff_iff, List.contains_iff_mem, List.contains_iff_mem, h]
  have hx : isExpanded declared = isExpanded declared' := by
    funext spec
    rw [isExpanded, isExpanded, hc]
  have he : expanded declared = expanded declared' := by
    funext name spec
    rw [expanded, expanded, hc]
  have hs : shorthand declared = shorthand declared' := by
    funext name spec
    rw [shorthand, shorthand, hc]
  funext e
  simp only [stepEntry, step, stepParts, hx, he, hs]

theorem graph_congr {declared declared' : List String} (h : declared.Perm declared') :
    graph declared = graph declared' := by
  funext v
  cases v with
  | mapping es =>
      cases es with
      | nil => rfl
      | cons e es => rw [graph, graph, stepEntry_eq_of_mem_iff fun s ↦ h.mem_iff]
  | _ => rfl

/-! ## Documents -/

theorem declaredTasks_eq (root : Entries) :
    declaredTasks root = (Entries.lookup "tasks" root).elim [] Value.entryNames := by
  rw [declaredTasks]
  cases Entries.lookup "tasks" root with
  | none => rfl
  | some v =>
      rw [Option.bind_some, Option.elim_some, Value.entryNames]
      cases v.entries? with
      | none => rfl
      | some es => exact (Entries.names_eq es).symm

/-- A section that is there in both documents or in neither is read alike. -/
theorem optional_upToOrder {α : Type} {R : Value → Value → Prop}
    {read read' : Value → Checked (List α)}
    (hread : ∀ v w, R v w → Checked.UpToOrder List.Perm (read v) (read' w))
    {v w : Option Value} (h : Option.Rel R v w) :
    Checked.UpToOrder List.Perm (optional read v) (optional read' w) := by
  cases h with
  | none => exact .refl _
  | some h => exact hread _ _ h

theorem entryNames_perm_of_rel {v w : Option Value} (h : Option.Rel Value.IsArranged v w) :
    (v.elim [] Value.entryNames).Perm (w.elim [] Value.entryNames) := by
  cases h with
  | none => exact .refl _
  | some h => exact h.entryNames_perm

theorem isNone_eq_of_rel {R : Value → Value → Prop} {v w : Option Value} (h : Option.Rel R v w) :
    v.isNone = w.isNone := by
  cases h with
  | none => rfl
  | some _ => rfl

/-- Two documents that differ in the order of their entries, or of the entries of their sections,
hold the same parts and have the same problems. -/
theorem document_upToOrder {root root' : Entries} (hk : root.keys.Perm root'.keys)
    (hs : ∀ name, Option.Rel Value.IsArranged (Entries.lookup name root)
      (Entries.lookup name root')) :
    Checked.UpToOrder Description.SameParts (document root) (document root') := by
  have hmissing : (["tasks", "graph"].filter fun s ↦ (Entries.lookup s root).isNone) =
      ["tasks", "graph"].filter fun s ↦ (Entries.lookup s root').isNone :=
    List.filter_congr fun s _ ↦ isNone_eq_of_rel (hs s)
  -- Steps are read with the names of the tasks, which come in another order as well.
  have hgraph : graph (declaredTasks root) = graph (declaredTasks root') := by
    refine graph_congr ?_
    rw [declaredTasks_eq, declaredTasks_eq]
    exact entryNames_perm_of_rel (hs "tasks")
  rw [document, document, hmissing, hgraph]
  refine (Checked.UpToOrder.notes ((hk.filter _).map _)).bind fun _ _ _ ↦ ?_
  refine (Checked.UpToOrder.notes (.refl _)).bind fun _ _ _ ↦ ?_
  refine (optional_upToOrder (fun _ _ h ↦ parameters_upToOrder h) (hs "parameters")).bind
    fun _ _ hps ↦ ?_
  refine (optional_upToOrder (fun _ _ h ↦ readsSection_tasks.upToOrder h) (hs "tasks")).bind
    fun _ _ hts ↦ ?_
  refine (optional_upToOrder (fun _ _ h ↦ readsSection_graph.upToOrder h) (hs "graph")).bind
    fun _ _ hss ↦ ?_
  exact .pure ⟨hps, hts, hss⟩

end Shape

end LabPlan
