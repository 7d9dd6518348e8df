import LabPlan.Proofs.Description.Names
import LabPlan.Proofs.Description.Order
import LabPlan.Proofs.StepGraph.Reports

/-! # The order of declarations

Whether a description is valid does not depend on the order in which things are declared.  The
checks reach parameters, tasks and steps by their names, and what they say of cycles is said of the
names of steps.  So the same parts in another order have the same problems, and a document whose
entries come in another order holds the same parts. -/

namespace LabPlan

open StepGraph

namespace Description

/-- Where names are distinct, a name finds the same thing in any order. -/
theorem find?_name_eq_of_perm {α : Type} {nameOf : α → String} {as bs : List α}
    (hd : (as.map nameOf).Nodup) (h : as.Perm bs) (name : String) :
    as.find? (nameOf · == name) = bs.find? (nameOf · == name) := by
  ext a
  rw [find?_name_eq_some_iff hd, find?_name_eq_some_iff ((h.map _).nodup_iff.1 hd), h.mem_iff]

namespace SameParts

variable {d e : Description}

theorem symm (h : d.SameParts e) : e.SameParts d :=
  ⟨h.parameters.symm, h.tasks.symm, h.steps.symm⟩

/-! ## Names -/

theorem isStep_eq (h : d.SameParts e) : d.IsStep = e.IsStep := by
  funext n
  exact propext (h.steps.map _).mem_iff

theorem waits_eq (h : d.SameParts e) : d.Waits = e.Waits := by
  funext a b
  simp only [Waits, h.isStep_eq, h.steps.mem_iff]

theorem isComponent (h : d.SameParts e) {names : List String} (hc : d.IsComponent names) :
    e.IsComponent names where
  sorted := hc.sorted
  two_le := hc.two_le
  steps := h.isStep_eq ▸ hc.steps
  mem_iff := h.waits_eq ▸ hc.mem_iff

theorem isComponent_iff (h : d.SameParts e) {names : List String} :
    d.IsComponent names ↔ e.IsComponent names := ⟨h.isComponent, h.symm.isComponent⟩

/-! ## Problems -/

theorem nameClashes_perm (h : d.SameParts e) : d.nameClashes.Perm e.nameClashes := by
  have hnames (n : String) : (d.parameters.map Parameter.name).contains n =
      (e.parameters.map Parameter.name).contains n := (h.parameters.map _).contains_eq
  rw [nameClashes, nameClashes]
  simp only [hnames]
  exact (h.steps.filter _).map _

theorem unknownDependencies_perm (h : d.SameParts e) :
    (d.unknownDependencies (ofDescription d)).Perm (e.unknownDependencies (ofDescription e)) := by
  have hindex (n : String) :
      ((ofDescription d).index? n).isNone = ((ofDescription e).index? n).isNone := by
    rw [Bool.eq_iff_iff, index?_isNone_iff, index?_isNone_iff, (h.steps.map Step.name).mem_iff]
  rw [unknownDependencies, unknownDependencies]
  simp only [hindex]
  exact h.steps.flatMap_right _

section Steps

variable (h : d.SameParts e) (hs : (d.steps.map Step.name).Nodup)
include h hs

theorem nodup_steps : (e.steps.map Step.name).Nodup := (h.steps.map _).nodup_iff.1 hs

/-- The same steps wait for themselves, whatever the numbers of their nodes are. -/
theorem selfLoops_perm : (ofDescription d).selfLoops.Perm (ofDescription e).selfLoops := by
  obtain ⟨names, hloops, hnodup, hmem⟩ := selfLoops_ofDescription hs
  obtain ⟨names', hloops', hnodup', hmem'⟩ := selfLoops_ofDescription (h.nodup_steps hs)
  rw [hloops, hloops']
  refine ((List.perm_ext_iff_of_nodup hnodup hnodup').2 fun a ↦ ?_).map _
  rw [hmem, hmem', h.waits_eq]

/-- The components are the same, though the walk that finds them is another. -/
theorem cycles_perm : (ofDescription d).cycles.Perm (ofDescription e).cycles := by
  obtain ⟨comps, hcycles, hnodup, hmem⟩ := cycles_ofDescription hs
  obtain ⟨comps', hcycles', hnodup', hmem'⟩ := cycles_ofDescription (h.nodup_steps hs)
  rw [hcycles, hcycles']
  refine ((List.perm_ext_iff_of_nodup hnodup hnodup').2 fun names ↦ ?_).map _
  rw [hmem, hmem', h.isComponent_iff]

end Steps

section Names

variable (h : d.SameParts e) (hp : (d.parameters.map Parameter.name).Nodup)
  (ht : (d.tasks.map TaskDecl.name).Nodup) (hs : (d.steps.map Step.name).Nodup)
include h hp ht hs

/-- A reference leads to the same parameter or step, and to the same outputs. -/
theorem referenceProblem?_eq : d.referenceProblem? = e.referenceProblem? := by
  have hparameter : d.parameter? = e.parameter? := by
    funext n
    exact find?_name_eq_of_perm hp h.parameters n
  have htask : d.task? = e.task? := by
    funext n
    exact find?_name_eq_of_perm ht h.tasks n
  have hstep : d.step? = e.step? := by
    funext n
    exact find?_name_eq_of_perm hs h.steps n
  have houtputs : d.outputsOf = e.outputsOf := by
    funext s
    rw [outputsOf, outputsOf, htask]
  funext n r
  simp only [referenceProblem?, outputProblem?, hparameter, hstep, houtputs]

theorem referenceProblems_perm : d.referenceProblems.Perm e.referenceProblems := by
  rw [referenceProblems, referenceProblems, h.referenceProblem?_eq hp ht hs]
  exact h.steps.flatMap_right _

/-- The same parts in another order have the same problems. -/
theorem problems_perm :
    (d.problems (ofDescription d)).Perm (e.problems (ofDescription e)) := by
  rw [problems, problems, structureProblems, structureProblems]
  refine List.Perm.append ?_ (h.referenceProblems_perm hp ht hs)
  exact ((h.nameClashes_perm.append h.unknownDependencies_perm).append
    (h.selfLoops_perm hs)).append (h.cycles_perm hs)

end Names

end SameParts

end Description

namespace Value

/-! ## Documents -/

/-- The entries of the document have distinct names, and so have those of each of its sections. -/
structure SectionsNamed (v : Value) : Prop where
  root : v.ownEntries.NamesDistinct
  inner : ∀ e ∈ v.ownEntries, e.2.ownEntries.NamesDistinct

theorem HasPlainKeys.sectionsNamed {v : Value} (h : v.HasPlainKeys) : v.SectionsNamed where
  root := h.namesDistinct
  inner := by
    cases v with
    | mapping es => exact fun e he ↦ (h.value he).namesDistinct
    | _ => exact List.forall_mem_nil _

/-- The order of the entries of a mapping, and of those of its sections, may differ. -/
inductive Rearranged : Value → Value → Prop where
  | mk {es fs : Entries} (keys : es.keys.Perm fs.keys)
    (sections : ∀ name, Option.Rel IsArranged (Entries.lookup name es) (Entries.lookup name fs)) :
    Rearranged (mapping es) (mapping fs)
  | tagged {t u : String} {v w : Value} : Rearranged (tagged t v) (tagged u w)

variable {v w : Value}

theorem Permuted.namesDistinct_iff (h : Permuted v w) :
    v.ownEntries.NamesDistinct ↔ w.ownEntries.NamesDistinct := by
  cases h with
  | mk h => exact (Entries.names_perm h).nodup_iff
  | tagged h => exact Iff.rfl

/-- Reordering the sections keeps names distinct and rearranges the document. -/
theorem SectionsNamed.permuted (hv : v.SectionsNamed) (h : Permuted v w) :
    w.SectionsNamed ∧ Rearranged v w := by
  cases h with
  | @mk es fs h =>
      have hes : es.NamesDistinct := hv.root
      refine ⟨⟨hes.perm h, fun e he ↦ hv.inner e (h.mem_iff.2 he)⟩, .mk (h.map _) fun name ↦ ?_⟩
      rw [← Entries.lookup_eq_of_perm hes h]
      cases hfound : Entries.lookup name es with
      | none => exact .none
      | some u => exact .some ⟨hv.inner _ (Entries.mem_of_lookup hfound), .inl rfl⟩
  | tagged h => exact ⟨⟨Entries.namesDistinct_nil, List.forall_mem_nil _⟩, .tagged⟩

/-- Reordering the entries of one section does so too. -/
theorem SectionsNamed.permuted_inner (hv : v.SectionsNamed) {name : String}
    (h : AtName name Permuted v w) : w.SectionsNamed ∧ Rearranged v w := by
  obtain ⟨es, fs, rfl, rfl, hpaired⟩ := h.exists_paired
  -- One value is arranged anew; the keys stay, and with them the names of the sections.
  have hinner : (∀ e ∈ es, e.2.ownEntries.NamesDistinct) ↔
      ∀ f ∈ fs, f.2.ownEntries.NamesDistinct := by
    refine Checked.forall_iff_of_forall₂ ?_ hpaired
    rintro e f ⟨-, hef | ⟨-, hef⟩⟩
    · rw [hef]
    · exact hef.namesDistinct_iff
  refine ⟨⟨?_, hinner.1 hv.inner⟩, .mk (.of_eq hpaired.keys_eq) fun s ↦ ?_⟩
  · show (Entries.names fs).Nodup
    rw [← hpaired.names_eq]
    exact hv.root
  · have hrel := hpaired.lookup s
    generalize Entries.lookup s fs = found at hrel ⊢
    cases hfound : Entries.lookup s es with
    | none =>
        rw [hfound] at hrel
        cases hrel
        exact .none
    | some u =>
        rw [hfound] at hrel
        cases hrel with
        | some hr =>
            exact .some ⟨hv.inner _ (Entries.mem_of_lookup hfound), hr.imp_right And.right⟩

end Value

namespace Description

variable {v w : Value}

/-- A rearranged document holds the same parts, or is refused for the same problems. -/
theorem ofValue_of_rearranged (h : v.Rearranged w) :
    (∃ d e, ofValue v = .ok d ∧ ofValue w = .ok e ∧ d.SameParts e) ∨
      ∃ ps qs, ofValue v = .error ps ∧ ofValue w = .error qs ∧ ps.Perm qs := by
  cases h with
  | mk hkeys hsections => exact (Shape.document_upToOrder hkeys hsections).toExcept
  | tagged => exact .inr ⟨_, _, rfl, rfl, .refl _⟩

/-- What a document with distinct names holds has distinct names. -/
theorem nodup_of_sectionsNamed (hv : v.SectionsNamed) {d : Description} (h : ofValue v = .ok d) :
    (d.tasks.map TaskDecl.name).Nodup ∧ (d.steps.map Step.name).Nodup := by
  obtain ⟨root, rfl, hroot⟩ := ofValue_eq_ok_iff.1 h
  obtain ⟨-, -, ts, gs, hts, htasks, hgs, hsteps⟩ := Shape.document_eq_pure_iff.1 hroot
  rw [Shape.map_name_of_tasks htasks, Shape.map_name_of_graph hsteps]
  exact ⟨hv.inner _ (Entries.mem_of_lookup hts), hv.inner _ (Entries.mem_of_lookup hgs)⟩

/-- Rearranging a document with distinct names keeps its problems. -/
theorem problems_perm_of_rearranged (hv : v.SectionsNamed) (h : v.Rearranged w) :
    v.problems.Perm w.problems := by
  rw [Value.problems, Value.problems]
  obtain ⟨d, e, hd, he, hparts⟩ | ⟨ps, qs, hp, hq, hperm⟩ := ofValue_of_rearranged h
  · rw [hd, he]
    -- Only a description that is read has names; its parameters are compared as they are read.
    obtain ⟨htasks, hsteps⟩ := nodup_of_sectionsNamed hv hd
    exact hparts.problems_perm (areDeclarable_of_ofValue hd).nodup htasks hsteps
  · rw [hp, hq]
    exact hperm

/-- Reordering keeps names distinct and the problems the same, however often it is done. -/
theorem problems_perm_of_reordered (hv : v.SectionsNamed) (h : v.Reordered w) :
    w.SectionsNamed ∧ v.problems.Perm w.problems := by
  induction h with
  | refl => exact ⟨hv, .refl _⟩
  | root _ hp ih =>
      obtain ⟨hu, hperm⟩ := ih
      obtain ⟨hw, hr⟩ := hu.permuted hp
      exact ⟨hw, hperm.trans (problems_perm_of_rearranged hu hr)⟩
  | inner _ _ hp ih =>
      obtain ⟨hu, hperm⟩ := ih
      obtain ⟨hw, hr⟩ := hu.permuted_inner hp
      exact ⟨hw, hperm.trans (problems_perm_of_rearranged hu hr)⟩

/-- Reordering the entries of a document, and of its sections, changes at most the order of what is
reported; it is valid in every order or in none. -/
theorem reports_of_reordered (hd : v.KeysDistinct) (hu : v.KeysUntagged) (h : v.Reordered w) :
    (v.problems.map Problem.report).Perm (w.problems.map Problem.report) ∧
      v.isValid = w.isValid := by
  have hv : v.HasPlainKeys := ⟨hd, hu⟩
  obtain ⟨-, hperm⟩ := problems_perm_of_reordered hv.sectionsNamed h
  exact ⟨hperm.map _, hperm.isEmpty_eq⟩

/-- Tasks before the graph, whose steps wait for each other. -/
def tangled : Value := .mapping [
  (.string "tasks", .mapping [
    (.string "fit", .mapping [(.string "plugin", .string "lab.tasks.fit")])]),
  (.string "graph", .mapping [
    (.string "tune", .mapping [(.string "fit", .null),
      (.string "dependencies", .sequence [.string "fold", .string "tune"])]),
    (.string "fold", .mapping [(.string "fit", .string "$tune")]),
    (.string "score", .mapping [(.string "fit", .string "$fold.model")])])]

/-- The same with the graph in front and its last step first. -/
def turned : Value := .mapping [
  (.string "graph", .mapping [
    (.string "score", .mapping [(.string "fit", .string "$fold.model")]),
    (.string "tune", .mapping [(.string "fit", .null),
      (.string "dependencies", .sequence [.string "fold", .string "tune"])]),
    (.string "fold", .mapping [(.string "fit", .string "$tune")])]),
  (.string "tasks", .mapping [
    (.string "fit", .mapping [(.string "plugin", .string "lab.tasks.fit")])])]

theorem tangled_reordered : tangled.Reordered turned := by
  refine .inner (.root (.refl tangled) (.mk (.swap _ _ []))) (by simp [Shape.sections])
    (.mk [] _ rfl (.mk ?_))
  exact (List.perm_append_singleton _ [_, _])

/-- The theorem at a document with a cycle and two references that cannot be resolved: the reports
are the same and come in another order. -/
theorem tangled_reports : tangled.KeysDistinct ∧ tangled.KeysUntagged ∧
    tangled.Reordered turned ∧
    (tangled.problems.map Problem.report).Perm (turned.problems.map Problem.report) ∧
    tangled.problems.map Problem.code = ["V003", "V004", "R003", "R004"] ∧
    turned.problems.map Problem.code = ["V003", "V004", "R004", "R003"] ∧
    turned.isValid = false := by
  have hd : tangled.KeysDistinct := by
    simp [tangled, Value.KeysDistinct, Value.everywhere_mapping, Value.everywhere_sequence,
      Value.ownEntries, Entries.Distinct, Value.same]
  have hu : tangled.KeysUntagged := by
    simp [tangled, Value.KeysUntagged, Value.everywhere_mapping, Value.everywhere_sequence,
      Value.ownEntries, Value.isTagged, -Prod.forall]
  obtain ⟨hperm, hvalid⟩ := reports_of_reordered hd hu tangled_reordered
  have hcodes : tangled.problems.map Problem.code = ["V003", "V004", "R003", "R004"] := by rfl
  have hinvalid : tangled.isValid = false := by rfl
  exact ⟨hd, hu, tangled_reordered, hperm, hcodes, by rfl, hvalid ▸ hinvalid⟩

end Description

end LabPlan
