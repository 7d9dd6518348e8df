import LabPlan.Proofs.StepGraph.Cycles
import LabPlan.Text.Bytes
import Mathlib.Data.List.Sort

/-! # What is reported of cycles

Where steps have distinct names, a path along edges is a chain of steps that wait for each other.
Steps that wait for themselves are reported one by one, and every larger component once, by the
names of its steps in increasing order.  Nothing else is reported, and there is an order of
execution exactly if nothing is. -/

namespace LabPlan

open Relation StepGraph

namespace Description

/-- Two or more steps that wait for one another and for no others in turn, by the order of their
bytes. -/
structure IsComponent (d : Description) (names : List String) : Prop where
  sorted : names.Pairwise fun a b ↦ Text.bytes a < Text.bytes b
  two_le : 2 ≤ names.length
  steps : ∀ a ∈ names, d.IsStep a
  /-- A step belongs to it exactly if it waits for its steps and they wait for it. -/
  mem_iff : ∀ a ∈ names, ∀ b, b ∈ names ↔ ReflTransGen d.Waits a b ∧ ReflTransGen d.Waits b a

variable {d : Description}

/-! ## Names and nodes -/

theorem nodes_ofDescription (d : Description) :
    (ofDescription d).nodes = d.steps.map Step.name := rfl

theorem nameOf_eq_getElem {i : Nat} (hi : i < (ofDescription d).nodes.length) :
    (ofDescription d).nameOf i = (ofDescription d).nodes[i] := by
  rw [nameOf, List.getD_eq_getElem?_getD, List.getElem?_eq_getElem hi]
  rfl

/-- The steps are those that have a node. -/
theorem isStep_iff {a : String} :
    d.IsStep a ↔ ∃ i < (ofDescription d).nodes.length, (ofDescription d).nameOf i = a := by
  rw [IsStep, ← nodes_ofDescription, List.mem_iff_getElem]
  constructor
  · rintro ⟨i, hi, rfl⟩
    exact ⟨i, hi, nameOf_eq_getElem hi⟩
  · rintro ⟨i, hi, rfl⟩
    exact ⟨i, hi, (nameOf_eq_getElem hi).symm⟩

/-- Where steps have distinct names, a name has one node. -/
theorem nameOf_inj (hd : (d.steps.map Step.name).Nodup) {i j : Nat}
    (hi : i < (ofDescription d).nodes.length) (hj : j < (ofDescription d).nodes.length)
    (h : (ofDescription d).nameOf i = (ofDescription d).nameOf j) : i = j := by
  rw [nameOf_eq_getElem hi, nameOf_eq_getElem hj] at h
  exact (List.Nodup.getElem_inj_iff hd).1 h

/-- An edge means that the second node's step waits for the first one's. -/
theorem waits_of_hasEdge (hd : (d.steps.map Step.name).Nodup) {i j : Nat}
    (h : (ofDescription d).HasEdge i j) :
    d.Waits ((ofDescription d).nameOf i) ((ofDescription d).nameOf j) := by
  obtain ⟨s, t, hs, ht, hn⟩ := (hasEdge_iff_names hd).1 h
  rw [nameOf_eq hs, nameOf_eq ht]
  exact ⟨List.mem_map_of_mem (List.mem_of_getElem? hs), t, List.mem_of_getElem? ht, rfl, hn⟩

/-- A step that waits for another has a node, and an edge leads to it. -/
theorem exists_hasEdge_of_waits (hd : (d.steps.map Step.name).Nodup) {i : Nat} {b : String}
    (hi : i < (ofDescription d).nodes.length) (h : d.Waits ((ofDescription d).nameOf i) b) :
    ∃ j < (ofDescription d).nodes.length, (ofDescription d).nameOf j = b ∧
      (ofDescription d).HasEdge i j := by
  obtain ⟨-, t, ht, rfl, hn⟩ := h
  obtain ⟨j, hj, rfl⟩ := List.getElem_of_mem ht
  have hi' : i < d.steps.length := by simpa [nodes_ofDescription] using hi
  have hj' : j < (ofDescription d).nodes.length := by simpa [nodes_ofDescription] using hj
  refine ⟨j, hj', by simp [nodes_ofDescription, nameOf_eq_getElem hj'], ?_⟩
  refine (hasEdge_iff_names hd).2 ⟨d.steps[i], d.steps[j], List.getElem?_eq_getElem hi',
    List.getElem?_eq_getElem hj, ?_⟩
  rw [nameOf_eq_getElem hi] at hn
  simpa [nodes_ofDescription] using hn

/-- One step waits for another exactly if their nodes have an edge. -/
theorem waits_iff_hasEdge (hd : (d.steps.map Step.name).Nodup) {i j : Nat}
    (hi : i < (ofDescription d).nodes.length) (hj : j < (ofDescription d).nodes.length) :
    d.Waits ((ofDescription d).nameOf i) ((ofDescription d).nameOf j) ↔
      (ofDescription d).HasEdge i j := by
  refine ⟨fun h ↦ ?_, waits_of_hasEdge hd⟩
  obtain ⟨k, hk, hname, hedge⟩ := exists_hasEdge_of_waits hd hi h
  rwa [← nameOf_inj hd hk hj hname]

/-- A chain of steps that wait for each other has a path below it. -/
theorem exists_path_of_waits (hd : (d.steps.map Step.name).Nodup) {i : Nat} {b : String}
    (hi : i < (ofDescription d).nodes.length)
    (h : ReflTransGen d.Waits ((ofDescription d).nameOf i) b) :
    ∃ j < (ofDescription d).nodes.length, (ofDescription d).nameOf j = b ∧
      ReflTransGen (ofDescription d).HasEdge i j := by
  induction h with
  | refl => exact ⟨i, hi, rfl, .refl⟩
  | tail _ hbc ih =>
      obtain ⟨k, hk, rfl, hik⟩ := ih
      obtain ⟨m, hm, hname, hkm⟩ := exists_hasEdge_of_waits hd hk hbc
      exact ⟨m, hm, hname, hik.tail hkm⟩

/-- Chains of steps that wait for each other are paths. -/
theorem reflTransGen_waits_iff (hd : (d.steps.map Step.name).Nodup) {i j : Nat}
    (hi : i < (ofDescription d).nodes.length) (hj : j < (ofDescription d).nodes.length) :
    ReflTransGen d.Waits ((ofDescription d).nameOf i) ((ofDescription d).nameOf j) ↔
      ReflTransGen (ofDescription d).HasEdge i j := by
  constructor
  · intro h
    obtain ⟨k, hk, hname, hik⟩ := exists_path_of_waits hd hi h
    rwa [← nameOf_inj hd hk hj hname]
  · intro h
    exact ReflTransGen.lift (ofDescription d).nameOf (fun _ _ ↦ waits_of_hasEdge hd) _ _ h

/-! ## Components -/

/-- The names of a component belong to the steps of its nodes. -/
theorem mem_componentNames_iff {c : List Nat} {a : String} :
    a ∈ (ofDescription d).componentNames c ↔ ∃ i ∈ c, (ofDescription d).nameOf i = a :=
  mem_sorted_names_iff

/-- A component is listed with as many names as it has nodes. -/
theorem length_componentNames (c : List Nat) :
    ((ofDescription d).componentNames c).length = c.length := by
  rw [componentNames, sorted, List.length_mergeSort, List.length_map]

/-- Distinct names are sorted by the order of their bytes. -/
theorem pairwise_sorted {names : List String} (h : names.Nodup) :
    (sorted names).Pairwise fun a b ↦ Text.bytes a < Text.bytes b := by
  have hle : (sorted names).Pairwise fun a b ↦ a ≤ b := by
    refine (List.pairwise_mergeSort ?_ ?_ names).imp of_decide_eq_true
    · intro a b c hab hbc
      exact decide_eq_true (String.le_trans (of_decide_eq_true hab) (of_decide_eq_true hbc))
    · intro a b
      simpa using String.le_total a b
  have hne : (sorted names).Nodup := (List.mergeSort_perm _ _).nodup_iff.2 h
  refine (hle.and hne).imp fun {a b} hab ↦ Text.bytes_lt_iff.2 ?_
  exact String.not_le.1 fun hba ↦ hab.2 (String.le_antisymm hab.1 hba)

theorem pairwise_componentNames (hd : (d.steps.map Step.name).Nodup) {c : List Nat}
    (hc : c ∈ (ofDescription d).components) :
    ((ofDescription d).componentNames c).Pairwise fun a b ↦ Text.bytes a < Text.bytes b := by
  have hg := isBounded_ofDescription d
  have hnodup : c.Nodup := by
    obtain ⟨k, -, rfl⟩ := eq_component_of_mem hg hc
    exact nodup_component k
  exact pairwise_sorted (hnodup.map_on fun i hi j hj ↦
    nameOf_inj hd (lt_of_mem_components hg hc hi) (lt_of_mem_components hg hc hj))

/-- What is in a component with one of its steps is all that this step and it lead to in turn. -/
theorem mem_componentNames_iff_waits (hd : (d.steps.map Step.name).Nodup) {c : List Nat}
    (hc : c ∈ (ofDescription d).components) {a b : String}
    (ha : a ∈ (ofDescription d).componentNames c) :
    b ∈ (ofDescription d).componentNames c ↔
      ReflTransGen d.Waits a b ∧ ReflTransGen d.Waits b a := by
  have hg := isBounded_ofDescription d
  obtain ⟨k, hk, rfl⟩ := eq_component_of_mem hg hc
  obtain ⟨i, hi, rfl⟩ := mem_componentNames_iff.1 ha
  obtain ⟨hki, hik⟩ := (mem_component_iff hg hk).1 hi
  have hi' := hg.reaches_lt hk hki
  rw [mem_componentNames_iff]
  constructor
  · rintro ⟨j, hj, rfl⟩
    obtain ⟨hkj, hjk⟩ := (mem_component_iff hg hk).1 hj
    have hj' := hg.reaches_lt hk hkj
    rw [reflTransGen_waits_iff hd hi' hj', reflTransGen_waits_iff hd hj' hi']
    exact ⟨hik.trans hkj, hjk.trans hki⟩
  · rintro ⟨hab, hba⟩
    obtain ⟨j, hj, rfl, hij⟩ := exists_path_of_waits hd hi' hab
    rw [reflTransGen_waits_iff hd hj hi'] at hba
    exact ⟨j, (mem_component_iff hg hk).2 ⟨hki.trans hij, hba.trans hik⟩, rfl⟩

/-- What is listed for a component of two or more nodes is a component of steps. -/
theorem isComponent_componentNames (hd : (d.steps.map Step.name).Nodup) {c : List Nat}
    (hc : c ∈ (ofDescription d).components) (h : 2 ≤ c.length) :
    d.IsComponent ((ofDescription d).componentNames c) where
  sorted := pairwise_componentNames hd hc
  two_le := by rwa [length_componentNames]
  steps := by
    intro a ha
    obtain ⟨i, hi, rfl⟩ := mem_componentNames_iff.1 ha
    exact isStep_iff.2 ⟨i, lt_of_mem_components (isBounded_ofDescription d) hc hi, rfl⟩
  mem_iff := fun a ha b ↦ mem_componentNames_iff_waits hd hc ha

theorem nodup_of_pairwise_bytes {names : List String}
    (h : names.Pairwise fun a b ↦ Text.bytes a < Text.bytes b) : names.Nodup := by
  refine h.imp ?_
  rintro a b hab rfl
  exact List.lt_irrefl _ hab

/-- Every component of two or more steps is listed. -/
theorem IsComponent.exists_eq (hd : (d.steps.map Step.name).Nodup) {names : List String}
    (h : d.IsComponent names) : ∃ c ∈ (ofDescription d).components, 2 ≤ c.length ∧
      (ofDescription d).componentNames c = names := by
  obtain ⟨a, rest, rfl⟩ := List.exists_cons_of_length_pos (Nat.zero_lt_of_lt h.two_le)
  obtain ⟨i, hi, rfl⟩ := isStep_iff.1 (h.steps a List.mem_cons_self)
  obtain ⟨c, hc, hic⟩ := exists_mem_components (isBounded_ofDescription d) hi
  have hsorted := pairwise_componentNames hd hc
  have hmem : (ofDescription d).nameOf i ∈ (ofDescription d).componentNames c :=
    mem_componentNames_iff.2 ⟨i, hic, rfl⟩
  -- Both lists have the steps that wait for that one and for which it waits; a sorted list is
  -- determined by its members.
  have hperm := (List.perm_ext_iff_of_nodup (nodup_of_pairwise_bytes hsorted)
    (nodup_of_pairwise_bytes h.sorted)).2 fun b ↦
      (mem_componentNames_iff_waits hd hc hmem).trans (h.mem_iff _ List.mem_cons_self b).symm
  have heq := hperm.eq_of_pairwise
    (fun a b _ _ hab hba ↦ absurd hba (List.lt_asymm hab)) hsorted h.sorted
  refine ⟨c, hc, ?_, heq⟩
  rw [← length_componentNames, heq]
  exact h.two_le

/-- The components of two or more steps, by the names of their steps. -/
theorem cycles_ofDescription (hd : (d.steps.map Step.name).Nodup) : ∃ comps : List (List String),
    (ofDescription d).cycles = comps.map .dependencyCycle ∧ comps.Nodup ∧
      ∀ names, names ∈ comps ↔ d.IsComponent names := by
  have hg := isBounded_ofDescription d
  refine ⟨((ofDescription d).components.filter fun c ↦ 2 ≤ c.length).map
    (ofDescription d).componentNames, ?_, ?_, fun names ↦ ?_⟩
  · rw [cycles, List.map_map]
    rfl
  · refine List.pairwise_map.2 (((pairwise_disjoint_components hg).filter _).imp_of_mem ?_)
    intro c c' hc hc' hdisj heq
    obtain ⟨hc, h2⟩ := List.mem_filter.1 hc
    obtain ⟨hc', -⟩ := List.mem_filter.1 hc'
    -- A name that both would list belongs to one node only, and that is in both.
    obtain ⟨i, hi⟩ := List.exists_mem_of_length_pos (Nat.zero_lt_of_lt (of_decide_eq_true h2))
    obtain ⟨j, hj, hname⟩ := mem_componentNames_iff.1 (heq ▸ mem_componentNames_iff.2 ⟨i, hi, rfl⟩)
    have hji : j = i :=
      nameOf_inj hd (lt_of_mem_components hg hc' hj) (lt_of_mem_components hg hc hi) hname
    exact hdisj hi (hji ▸ hj)
  · simp only [List.mem_map, List.mem_filter, decide_eq_true_eq]
    constructor
    · rintro ⟨c, ⟨hc, h⟩, rfl⟩
      exact isComponent_componentNames hd hc h
    · intro h
      obtain ⟨c, hc, h2, heq⟩ := h.exists_eq hd
      exact ⟨c, ⟨hc, h2⟩, heq⟩

/-- The steps that wait for themselves, by their names. -/
theorem selfLoops_ofDescription (hd : (d.steps.map Step.name).Nodup) : ∃ names : List String,
    (ofDescription d).selfLoops = names.map .dependsOnItself ∧ names.Nodup ∧
      ∀ a, a ∈ names ↔ d.Waits a a := by
  have hg := isBounded_ofDescription d
  refine ⟨((ofDescription d).edges.filter fun e ↦ e.source == e.target).map
    fun e ↦ (ofDescription d).nameOf e.source, ?_, ?_, fun a ↦ ?_⟩
  · rw [selfLoops, List.map_map]
    rfl
  · have hends := nodup_ends_ofDescription d
    refine ((hends.of_map _).filter _).map_on ?_
    intro e he e' he' hname
    obtain ⟨he, hloop⟩ := List.mem_filter.1 he
    obtain ⟨he', hloop'⟩ := List.mem_filter.1 he'
    have hsource : e.source = e'.source :=
      nameOf_inj hd (hg _ _ (hasEdge_of_mem he)).1 (hg _ _ (hasEdge_of_mem he')).1 hname
    refine List.inj_on_of_nodup_map hends he he' ?_
    rw [ends, ends, ← eq_of_beq hloop, ← eq_of_beq hloop', hsource]
  · simp only [List.mem_map, List.mem_filter, beq_iff_eq]
    constructor
    · rintro ⟨e, ⟨he, hloop⟩, rfl⟩
      have hedge := hasEdge_of_mem he
      rw [← hloop] at hedge
      exact waits_of_hasEdge hd hedge
    · intro h
      obtain ⟨i, hi, rfl⟩ := isStep_iff.1 h.1
      obtain ⟨e, he, hjoins⟩ := (waits_iff_hasEdge hd hi hi).1 h
      obtain ⟨rfl, htarget⟩ := joins_iff.1 hjoins
      exact ⟨e, ⟨he, htarget.symm⟩, rfl⟩

/-! ## Reports -/

/-- The reports of one code on the steps taken together. -/
def reportsOf (d : Description) (code : String) : List Report :=
  ((d.structureProblems (ofDescription d)).map Problem.report).filter (·.code == code)

/-- Where all problems have one code, a code is reported of all of them or of none. -/
theorem filter_report {ps : List Problem} {c : String} (h : ∀ p ∈ ps, p.code = c) (code : String) :
    (ps.map Problem.report).filter (·.code == code) =
      if c = code then ps.map Problem.report else [] := by
  split
  · rename_i hc
    refine List.filter_eq_self.2 ?_
    simpa [Problem.report, ← hc] using h
  · rename_i hc
    refine List.filter_eq_nil_iff.2 ?_
    rintro r hr hcode
    obtain ⟨p, hp, rfl⟩ := List.mem_map.1 hr
    exact hc ((h p hp).symm.trans (eq_of_beq hcode))

/-- The reports of a code, from the one check that gives it. -/
theorem reportsOf_eq (d : Description) (code : String) : d.reportsOf code =
    (if "V001" = code then d.nameClashes.map Problem.report else []) ++
    (if "V002" = code then (d.unknownDependencies (ofDescription d)).map Problem.report else []) ++
    (if "V003" = code then (ofDescription d).selfLoops.map Problem.report else []) ++
    (if "V004" = code then (ofDescription d).cycles.map Problem.report else []) := by
  have hclash : ∀ p ∈ d.nameClashes, p.code = "V001" := List.forall_mem_map.2 fun _ _ ↦ rfl
  have hunknown : ∀ p ∈ d.unknownDependencies (ofDescription d), p.code = "V002" := by
    intro p hp
    obtain ⟨s, -, hp⟩ := List.mem_flatMap.1 hp
    obtain ⟨n, -, rfl⟩ := List.mem_map.1 hp
    rfl
  have hloop : ∀ p ∈ (ofDescription d).selfLoops, p.code = "V003" :=
    List.forall_mem_map.2 fun _ _ ↦ rfl
  have hcycle : ∀ p ∈ (ofDescription d).cycles, p.code = "V004" :=
    List.forall_mem_map.2 fun _ _ ↦ rfl
  simp only [reportsOf, structureProblems, List.map_append, List.filter_append,
    filter_report hclash, filter_report hunknown, filter_report hloop, filter_report hcycle]

theorem reportsOf_selfLoops (d : Description) :
    d.reportsOf "V003" = (ofDescription d).selfLoops.map Problem.report := by
  simp [reportsOf_eq]

theorem reportsOf_cycles (d : Description) :
    d.reportsOf "V004" = (ofDescription d).cycles.map Problem.report := by
  simp [reportsOf_eq]

/-- The first name of a component is the least. -/
theorem IsComponent.exists_head {names : List String} (h : d.IsComponent names) :
    ∃ a ∈ names, names.head? = some a ∧ ∀ b ∈ names, b = a ∨ Text.bytes a < Text.bytes b := by
  obtain ⟨a, rest, rfl⟩ := List.exists_cons_of_length_pos (Nat.zero_lt_of_lt h.two_le)
  refine ⟨a, List.mem_cons_self, rfl, fun b hb ↦ ?_⟩
  exact (List.mem_cons.1 hb).imp_right ((List.pairwise_cons.1 h.sorted).1 b)

/-- Each step that waits for itself is reported once, and each component of two or more steps once,
with its steps in increasing order; the steps can be ordered exactly if neither is reported.  A
failure to order names a step that waits for itself, directly or through others. -/
theorem reports_exact (d : Description) (hd : (d.steps.map Step.name).Nodup) :
    (∃ names : List String, names.Nodup ∧ (∀ a, a ∈ names ↔ d.Waits a a) ∧
      d.reportsOf "V003" = names.map fun a ↦
        .validate "V003" ("Step " ++ Problem.named a ++ " depends on itself") (some a)) ∧
    (∃ comps : List (List String), comps.Nodup ∧ (∀ c, c ∈ comps ↔ d.IsComponent c) ∧
      (∀ c ∈ comps, ∃ a ∈ c, c.head? = some a ∧ ∀ b ∈ c, b = a ∨ Text.bytes a < Text.bytes b) ∧
      d.reportsOf "V004" = comps.map fun c ↦
        .validate "V004" ("Steps form a dependency cycle: " ++ ", ".intercalate c) c.head?) ∧
    ((∃ p, (ofDescription d).order = .error p) ↔
      d.reportsOf "V003" ≠ [] ∨ d.reportsOf "V004" ≠ []) ∧
    ∀ p, (ofDescription d).order = .error p → ∃ a, TransGen d.Waits a a ∧
      p.report = .validate "V004" ("Cycle detected at step " ++ Problem.named a) (some a) := by
  have hg := isBounded_ofDescription d
  obtain ⟨herror, hcycle⟩ := order_eq_error hg
  rw [reportsOf_selfLoops, reportsOf_cycles]
  refine ⟨?_, ?_, ?_, ?_⟩
  · obtain ⟨names, hloops, hnodup, hmem⟩ := selfLoops_ofDescription hd
    refine ⟨names, hnodup, hmem, ?_⟩
    rw [hloops, List.map_map]
    rfl
  · obtain ⟨comps, hcycles, hnodup, hmem⟩ := cycles_ofDescription hd
    refine ⟨comps, hnodup, hmem, fun c hc ↦ ((hmem c).1 hc).exists_head, ?_⟩
    rw [hcycles, List.map_map]
    rfl
  · rw [herror, acyclic_iff hg, not_and_or, ne_eq, ne_eq, List.map_eq_nil_iff, List.map_eq_nil_iff]
  · intro p hp
    obtain ⟨i, -, rfl, hii⟩ := hcycle p hp
    refine ⟨(ofDescription d).nameOf i, ?_, rfl⟩
    exact TransGen.lift (ofDescription d).nameOf (fun _ _ ↦ waits_of_hasEdge hd) _ _ hii

/-- Two steps that wait for each other, of which one waits for itself and refers to the other inside a
nested argument, and one step after them. -/
def ring : Description where
  parameters := []
  tasks := [⟨"fit", "lab.tasks.fit", ["model"]⟩]
  steps := [⟨"tune", "fit", [], [("folds", .map [(.string "all", .list [.reference ⟨"fold", none⟩])])],
      ["tune"]⟩,
    ⟨"fold", "fit", [], [], ["tune"]⟩,
    ⟨"score", "fit", [.list [.reference ⟨"fold", some "model"⟩]], [], []⟩]

/-- The theorem at a description with a cycle. -/
theorem ring_reports : (ring.steps.map Step.name).Nodup ∧ ring.Waits "tune" "tune" ∧
    (∃! c, ring.IsComponent c) ∧ TransGen ring.Waits "tune" "tune" := by
  have hd : (ring.steps.map Step.name).Nodup := by decide
  have hself : (ring.reportsOf "V003").map Report.step = [some "tune"] := by rfl
  have hcycle : (ring.reportsOf "V004").length = 1 := by rfl
  have horder : (ofDescription ring).order = .error (.noOrder "tune") := by rfl
  obtain ⟨⟨names, -, hnames, hloops⟩, ⟨comps, -, hcomps, -, hcycles⟩, -, hon⟩ :=
    reports_exact ring hd
  rw [hloops, List.map_map] at hself
  rw [hcycles, List.length_map] at hcycle
  refine ⟨hd, (hnames _).1 ?_, ?_, ?_⟩
  · obtain ⟨a, rfl, ha⟩ := List.map_eq_singleton_iff.1 hself
    obtain rfl := Option.some.inj ha
    exact List.mem_singleton_self _
  · obtain ⟨c, rfl⟩ := List.length_eq_one_iff.1 hcycle
    exact ⟨c, (hcomps c).1 (List.mem_singleton_self c), fun c' h ↦
      List.mem_singleton.1 ((hcomps c').2 h)⟩
  · obtain ⟨a, hpath, hreport⟩ := hon _ horder
    obtain rfl := Option.some.inj (congrArg Report.step hreport)
    exact hpath

end Description

end LabPlan
