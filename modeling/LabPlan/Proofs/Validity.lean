import LabPlan.Proofs.StepGraph.Cycles
import Mathlib.Data.List.GetD

/-! # Valid descriptions can be run

A description without problems is one whose steps can be put in an order in which each finds all
that it needs.  The rules say so piece by piece: names are apart, everything that a step needs is
there at all, and the graph has no cycles.  An order of execution is then a schedule. -/

namespace LabPlan

open StepGraph Relation

namespace Description

variable {d : Description}

/-! ## What each rule says -/

theorem nameClashes_eq_nil_iff : d.nameClashes = [] ↔ d.NamesApart := by
  simp [nameClashes, NamesApart, IsParameter]

/-- A name has no node if it is no step. -/
theorem index?_isNone_iff {name : String} :
    ((ofDescription d).index? name).isNone = true ↔ name ∉ d.steps.map Step.name := by
  rw [← isSome_indexIn?_iff, Option.not_isSome_iff_eq_none, Option.isNone_iff_eq_none]
  rfl

theorem unknownDependencies_eq_nil_iff : d.unknownDependencies (ofDescription d) = [] ↔
    ∀ s ∈ d.steps, ∀ n ∈ s.dependencies, n ∈ d.steps.map Step.name := by
  simp only [unknownDependencies, List.flatMap_eq_nil_iff, List.map_eq_nil_iff,
    List.filter_eq_nil_iff, index?_isNone_iff, not_not]

theorem parameter?_eq_none_iff {name : String} :
    d.parameter? name = none ↔ ¬ d.IsParameter name := by
  simp [parameter?, IsParameter]

/-- Where names are distinct, the first thing of a name is the only one. -/
theorem find?_name_eq_some_iff {α : Type} {nameOf : α → String} {as : List α}
    (hd : (as.map nameOf).Nodup) {name : String} {a : α} :
    as.find? (nameOf · == name) = some a ↔ a ∈ as ∧ nameOf a = name := by
  constructor
  · intro h
    exact ⟨List.mem_of_find?_eq_some h, by simpa using List.find?_some h⟩
  · rintro ⟨ha, rfl⟩
    cases h : as.find? (nameOf · == nameOf a) with
    | none => exact absurd (List.find?_eq_none.1 h a ha) (by simp)
    | some b =>
        have hb : nameOf b = nameOf a := by simpa using List.find?_some h
        rw [List.inj_on_of_nodup_map hd (List.mem_of_find?_eq_some h) ha hb]

theorem step?_eq_some_iff (hd : (d.steps.map Step.name).Nodup) {name : String} {s : Step} :
    d.step? name = some s ↔ s ∈ d.steps ∧ s.name = name := find?_name_eq_some_iff hd

theorem task?_eq_some_iff (hd : (d.tasks.map TaskDecl.name).Nodup) {name : String}
    {t : TaskDecl} : d.task? name = some t ↔ t ∈ d.tasks ∧ t.name = name :=
  find?_name_eq_some_iff hd

/-- The task that is found under a name is the first one of that name. -/
theorem task?_eq_some_iff_firstTask {name : String} {t : TaskDecl} :
    d.task? name = some t ↔ d.FirstTask t ∧ t.name = name := by
  rw [task?, List.find?_eq_some_iff_append, FirstTask, and_comm, beq_iff_eq]
  refine and_congr_left ?_
  rintro rfl
  simp

/-- What a step offers is among the outputs that are looked up for it. -/
theorem offers_iff {s : Step} {field : Option String} : d.Offers s field ↔
    match field with
    | none => (d.outputsOf s).length = 1
    | some o => o ∈ d.outputsOf s := by
  rw [outputsOf]
  simp only [Offers, ← and_assoc, ← task?_eq_some_iff_firstTask]
  cases d.task? s.task with
  | none => cases field <;> simp
  | some t => cases field <;> simp [List.length_eq_one_iff]

theorem outputProblem?_eq_none_iff {step : String} {target : Step} {r : Reference} :
    d.outputProblem? step target r = none ↔ d.Offers target r.field := by
  rw [outputProblem?, offers_iff]
  cases r.field with
  | none => simp
  | some field => simp

/-- Nothing is wrong with a reference if it can be resolved once all steps are done. -/
theorem referenceProblem?_eq_none_iff (hd : (d.steps.map Step.name).Nodup) {step : String}
    {r : Reference} : d.referenceProblem? step r = none ↔ d.Resolves d.steps r := by
  rw [referenceProblem?, Resolves]
  cases hp : d.parameter? r.name with
  | some p =>
      have hparam : d.IsParameter r.name := by
        by_contra h
        rw [parameter?_eq_none_iff.2 h] at hp
        cases hp
      simp [hparam]
  | none =>
      have hparam : ¬ d.IsParameter r.name := parameter?_eq_none_iff.1 hp
      simp only [hparam, and_false, not_false_eq_true, true_and, false_or]
      cases hs : d.step? r.name with
      | none =>
          simp only [reduceCtorEq, false_iff]
          rintro ⟨s, hs', hname, -⟩
          rw [(step?_eq_some_iff hd).2 ⟨hs', hname⟩] at hs
          cases hs
      | some t =>
          obtain ⟨ht, hname⟩ := (step?_eq_some_iff hd).1 hs
          rw [outputProblem?_eq_none_iff]
          refine ⟨fun h ↦ ⟨t, ht, hname, h⟩, ?_⟩
          rintro ⟨s, hs', hname', h⟩
          rwa [List.inj_on_of_nodup_map hd ht hs' (hname.trans hname'.symm)]

theorem referenceProblems_eq_nil_iff (hd : (d.steps.map Step.name).Nodup) :
    d.referenceProblems = [] ↔ ∀ s ∈ d.steps, ∀ r, s.Refers r → d.Resolves d.steps r := by
  simp only [referenceProblems, List.flatMap_eq_nil_iff, List.filterMap_eq_nil_iff,
    referenceProblem?_eq_none_iff hd, Step.mem_references_iff]

/-- The rules taken together: a description is free of problems if names are apart, every step has
what it needs once all steps are done, and no step waits for itself. -/
theorem problems_eq_nil_iff (hd : (d.steps.map Step.name).Nodup) :
    d.problems (ofDescription d) = [] ↔
      d.NamesApart ∧ (∀ s ∈ d.steps, d.Ready d.steps s) ∧ (ofDescription d).Acyclic := by
  simp only [problems, structureProblems, List.append_eq_nil_iff, nameClashes_eq_nil_iff,
    unknownDependencies_eq_nil_iff, referenceProblems_eq_nil_iff hd,
    acyclic_iff (isBounded_ofDescription d), Ready]
  constructor
  · rintro ⟨⟨⟨⟨hn, hu⟩, hl⟩, hc⟩, hr⟩
    exact ⟨hn, fun s hs ↦ ⟨hu s hs, hr s hs⟩, hl, hc⟩
  · rintro ⟨hn, h, hl, hc⟩
    exact ⟨⟨⟨⟨hn, fun s hs ↦ (h s hs).1⟩, hl⟩, hc⟩, fun s hs ↦ (h s hs).2⟩

/-! ## Schedules have no cycles -/

/-- Only the steps that are named matter for a step to be ready. -/
theorem Ready.of_named {before done : List Step} {s : Step} (h : d.Ready before s)
    (hsub : ∀ t ∈ before, s.Names t.name → t ∈ done) : d.Ready done s := by
  refine ⟨fun n hn ↦ ?_, fun r hr ↦ ?_⟩
  · obtain ⟨t, ht, rfl⟩ := List.mem_map.1 (h.1 n hn)
    exact List.mem_map_of_mem (hsub t ht (.inl hn))
  · refine (h.2 r hr).imp_right ?_
    rintro ⟨hp, t, ht, hname, ho⟩
    exact ⟨hp, t, hsub t ht (.inr ⟨r, hr, hname.symm⟩), hname, ho⟩

theorem IsSchedule.ready_all {steps : List Step} (h : d.IsSchedule steps) {s : Step}
    (hs : s ∈ d.steps) : d.Ready d.steps s := by
  obtain ⟨before, after, hsplit⟩ := List.append_of_mem (h.perm.mem_iff.2 hs)
  refine (h.ready before s after hsplit).of_named fun t ht _ ↦ h.perm.mem_iff.1 ?_
  rw [hsplit]
  exact List.mem_append_left _ ht

/-- A step that is named comes earlier. -/
theorem IsSchedule.idxOf_lt {steps : List Step} (h : d.IsSchedule steps) (ha : d.NamesApart)
    (hd : (d.steps.map Step.name).Nodup) {s t : Step} (hs : s ∈ d.steps) (ht : t ∈ d.steps)
    (hn : t.Names s.name) :
    (steps.map Step.name).idxOf s.name < (steps.map Step.name).idxOf t.name := by
  obtain ⟨before, after, hsplit⟩ := List.append_of_mem (h.perm.mem_iff.2 ht)
  have hready := h.ready before t after hsplit
  have hmem : s.name ∈ before.map Step.name := by
    rcases hn with hn | ⟨r, hr, hname⟩
    · exact hready.1 _ hn
    · rcases hready.2 r hr with ⟨-, hp⟩ | ⟨-, u, hu, hname', -⟩
      · exact absurd (hname ▸ hp) (ha s hs)
      · exact List.mem_map.2 ⟨u, hu, hname'.trans hname⟩
  have hnodup : (steps.map Step.name).Nodup := (h.perm.map _).nodup_iff.2 hd
  rw [hsplit, List.map_append, List.map_cons] at hnodup ⊢
  have hnot : t.name ∉ before.map Step.name := fun hm ↦
    (List.nodup_append.1 hnodup).2.2 _ hm _ List.mem_cons_self rfl
  rw [List.idxOf_append_of_mem hmem, List.idxOf_append_of_notMem hnot]
  exact (List.idxOf_lt_length_iff.2 hmem).trans_le (Nat.le_add_right _ _)

theorem IsSchedule.acyclic {steps : List Step} (h : d.IsSchedule steps) (ha : d.NamesApart)
    (hd : (d.steps.map Step.name).Nodup) : (ofDescription d).Acyclic := by
  let place (i : Nat) : Nat := (steps.map Step.name).idxOf ((ofDescription d).nameOf i)
  refine acyclic_of_lt place fun i j hij ↦ ?_
  obtain ⟨s, t, hs, ht, hn⟩ := (hasEdge_iff_names hd).1 hij
  have hlt := h.idxOf_lt ha hd (List.mem_of_getElem? hs) (List.mem_of_getElem? ht) hn
  rwa [← nameOf_eq hs, ← nameOf_eq ht] at hlt

/-! ## Orders of execution are schedules -/

/-- The step that a node stands for. -/
def stepAt (d : Description) (i : Nat) : Step := d.steps.getD i default

/-- The steps in the order in which the walk puts their nodes. -/
def plan (d : Description) : List Step := (ofDescription d).candidateOrder.map d.stepAt

theorem map_stepAt_range : (List.range d.steps.length).map d.stepAt = d.steps := by
  apply List.ext_getElem
  · simp
  · intro i hi hi'
    simp [stepAt, hi']

theorem plan_perm : d.plan.Perm d.steps := by
  have h := (candidateOrder_perm (isBounded_ofDescription d)).map d.stepAt
  rwa [length_nodes, map_stepAt_range] at h

theorem map_name_plan :
    d.plan.map Step.name = (ofDescription d).candidateOrder.map (ofDescription d).nameOf := by
  rw [plan, List.map_map]
  refine List.map_congr_left fun i _ ↦ ?_
  exact (List.getD_map d.steps default Step.name).symm

theorem isSchedule_plan (hd : (d.steps.map Step.name).Nodup)
    (hr : ∀ s ∈ d.steps, d.Ready d.steps s) (ha : (ofDescription d).Acyclic) :
    d.IsSchedule d.plan := by
  refine ⟨plan_perm, fun before s after hsplit ↦ ?_⟩
  have hs : s ∈ d.steps := plan_perm.mem_iff.1 (hsplit ▸ List.mem_append_right _ List.mem_cons_self)
  obtain ⟨is, rest, hcand, rfl, hrest⟩ := List.map_eq_append_iff.1 hsplit
  obtain ⟨i, js, rfl, rfl, -⟩ := List.map_eq_cons_iff.1 hrest
  have hi : i < d.steps.length := by
    have := (candidateOrder_perm (isBounded_ofDescription d)).mem_iff.1
      (hcand ▸ List.mem_append_right _ List.mem_cons_self)
    rwa [List.mem_range, length_nodes] at this
  refine (hr _ hs).of_named fun t ht hn ↦ ?_
  obtain ⟨k, hk, rfl⟩ := List.getElem_of_mem ht
  have hedge : (ofDescription d).HasEdge k i :=
    (hasEdge_iff_names hd).2 ⟨_, _, List.getElem?_eq_getElem hk, by simp [stepAt, hi], hn⟩
  refine List.mem_map.2 ⟨k, ?_, by simp [stepAt, hk]⟩
  exact mem_before_of_hasEdge (isBounded_ofDescription d) ha hcand hedge

/-! ## Validity -/

/-- A description whose steps have distinct names is free of problems exactly if no step is named
like a parameter and its steps have a schedule; the order of execution is then one. -/
theorem problems_eq_nil_iff_isSchedule (d : Description) (hd : (d.steps.map Step.name).Nodup) :
    (d.problems (ofDescription d) = [] ↔ d.NamesApart ∧ ∃ steps, d.IsSchedule steps) ∧
      (d.problems (ofDescription d) = [] → ∃ steps, d.IsSchedule steps ∧
        (ofDescription d).order = .ok (steps.map Step.name)) := by
  have hplan (h : d.problems (ofDescription d) = []) : d.NamesApart ∧ d.IsSchedule d.plan ∧
      (ofDescription d).order = .ok (d.plan.map Step.name) := by
    obtain ⟨hn, hr, ha⟩ := (problems_eq_nil_iff hd).1 h
    refine ⟨hn, isSchedule_plan hd hr ha, ?_⟩
    rw [map_name_plan]
    exact order_of_acyclic (isBounded_ofDescription d) ha
  refine ⟨⟨fun h ↦ ?_, ?_⟩, fun h ↦ ⟨d.plan, (hplan h).2⟩⟩
  · obtain ⟨hn, hs, -⟩ := hplan h
    exact ⟨hn, d.plan, hs⟩
  · rintro ⟨hn, steps, hs⟩
    exact (problems_eq_nil_iff hd).2 ⟨hn, fun s ↦ hs.ready_all, hs.acyclic hn hd⟩

/-- Steps that come before those they refer to, a parameter, and a task that another one of its name
hides. -/
def lateFirst : Description where
  parameters := [⟨"rate", .int 3, none⟩]
  tasks := [⟨"fit", "lab.tasks.fit", ["model", "log"]⟩, ⟨"rank", "lab.tasks.rank", ["best"]⟩,
    ⟨"rank", "lab.tasks.all", ["first", "second"]⟩]
  steps := [⟨"plot", "fit", [.reference ⟨"score", none⟩], [], []⟩,
    ⟨"score", "rank", [.list [.reference ⟨"train", some "log"⟩]], [], ["train"]⟩,
    ⟨"train", "fit", [.reference ⟨"rate", none⟩], [], []⟩]

/-- The theorem at a description whose steps are written in the wrong order. -/
theorem lateFirst_isSchedule : (lateFirst.steps.map Step.name).Nodup ∧ lateFirst.NamesApart ∧
    ∃ steps, lateFirst.IsSchedule steps ∧ steps.map Step.name = ["train", "score", "plot"] := by
  have hd : (lateFirst.steps.map Step.name).Nodup := by decide
  have hnil : lateFirst.problems (ofDescription lateFirst) = [] := by rfl
  obtain ⟨hiff, hrun⟩ := problems_eq_nil_iff_isSchedule lateFirst hd
  obtain ⟨steps, hs, horder⟩ := hrun hnil
  have hnames : (ofDescription lateFirst).order = .ok ["train", "score", "plot"] := by rfl
  exact ⟨hd, (hiff.1 hnil).1, steps, hs, Except.ok.inj (horder.symm.trans hnames)⟩

end Description

end LabPlan
