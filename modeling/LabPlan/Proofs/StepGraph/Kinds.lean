import LabPlan.Proofs.StepGraph.Reports

/-! # The kinds of edges

An edge is a dependency if the step at its end lists the one at its start, and a reference if it
only refers to it.  Neither how often a step is named matters nor where it is named first: listing
turns a reference into a dependency, and nothing turns it back. -/

namespace LabPlan

namespace StepGraph

/-! ## Dependencies -/

/-- A dependency leads from one node to the other. -/
def Depends (es : List Edge) (i j : Nat) : Prop := ⟨i, j, .dependency⟩ ∈ es

/-- Joining two nodes by a dependency makes one, and keeps those that were there. -/
theorem depends_addDependency {es : List Edge} {a b i j : Nat} :
    Depends (addDependency a b es) i j ↔ Depends es i j ∨ i = a ∧ j = b := by
  rw [addDependency]
  split
  · rename_i h
    rw [Depends, List.mem_map]
    constructor
    · rintro ⟨e, he, heq⟩
      split at heq
      · rename_i hj
        obtain ⟨rfl, rfl⟩ := joins_iff.1 hj
        obtain ⟨rfl, rfl, -⟩ := Edge.mk.inj heq
        exact .inr ⟨rfl, rfl⟩
      · subst heq
        exact .inl he
    · rintro (he | ⟨rfl, rfl⟩)
      · exact ⟨_, he, ite_self _⟩
      · obtain ⟨e, he, hj⟩ := List.any_eq_true.1 h
        obtain ⟨rfl, rfl⟩ := joins_iff.1 hj
        exact ⟨e, he, if_pos hj⟩
  · simp [Depends]

/-- Joining two nodes by a reference makes no dependency and loses none. -/
theorem depends_addReference {es : List Edge} {a b i j : Nat} :
    Depends (addReference a b es) i j ↔ Depends es i j := by
  rw [addReference]
  split
  · rfl
  · simp [Depends]

/-- A step makes dependencies of the edges from the nodes that it lists, and of no others. -/
theorem depends_addStep {nodes : List String} {es : List Edge} {s : Step} {i j : Nat} :
    Depends (addStep nodes es s) i j ↔ Depends es i j ∨
      indexIn? nodes s.name = some j ∧ ∃ n ∈ s.dependencies, indexIn? nodes n = some i := by
  rw [addStep]
  cases indexIn? nodes s.name with
  | none => simp
  | some b =>
      have hdep (es : List Edge) (a : Nat) :
          Depends (addDependency a b es) i j ↔ Depends es i j ∨ i = a ∧ j = b :=
        depends_addDependency
      have href (es : List Edge) (a : Nat) :
          Depends (addReference a b es) i j ↔ Depends es i j ∨ False := by
        rw [depends_addReference, or_false]
      dsimp only
      rw [foldl_iff (P := fun es ↦ Depends es i j) href,
        foldl_iff (P := fun es ↦ Depends es i j) hdep]
      simp only [and_false, exists_false, or_false, List.mem_filterMap, Option.some.injEq]
      refine or_congr_right ⟨?_, ?_⟩
      · rintro ⟨_, ⟨n, hn, hi⟩, rfl, rfl⟩
        exact ⟨rfl, n, hn, hi⟩
      · rintro ⟨rfl, n, hn, hi⟩
        exact ⟨i, ⟨n, hn, hi⟩, rfl, rfl⟩

/-- A dependency leads to a node from each that a step of its name lists. -/
theorem depends_ofDescription {d : Description} {i j : Nat} :
    Depends (ofDescription d).edges i j ↔ ∃ s ∈ d.steps,
      (ofDescription d).index? s.name = some j ∧
        ∃ n ∈ s.dependencies, (ofDescription d).index? n = some i := by
  refine (foldl_iff (P := fun es ↦ Depends es i j) (fun _ s ↦ depends_addStep (s := s))
    d.steps []).trans ?_
  exact or_iff_right List.not_mem_nil

/-! ## Edges by names -/

theorem find?_joins_eq_some_iff {es : List Edge} (hn : (es.map ends).Nodup) {i j : Nat}
    {e : Edge} : es.find? (joins i j) = some e ↔ e ∈ es ∧ e.source = i ∧ e.target = j := by
  rw [← joins_iff]
  refine ⟨fun h ↦ ⟨List.mem_of_find?_eq_some h, List.find?_some h⟩, fun ⟨he, hj⟩ ↦ ?_⟩
  obtain ⟨f, hf⟩ := Option.isSome_iff_exists.1 (List.find?_isSome.2 ⟨e, he, hj⟩)
  have hends : ends f = ends e := by
    obtain ⟨hs, ht⟩ := joins_iff.1 (List.find?_some hf)
    obtain ⟨hs', ht'⟩ := joins_iff.1 hj
    rw [ends, ends, hs, ht, hs', ht']
  rw [hf, List.inj_on_of_nodup_map hn (List.mem_of_find?_eq_some hf) he hends]

variable {d : Description} {a b : String}

theorem edgeKind?_eq_some_iff {k : EdgeKind} : (ofDescription d).edgeKind? a b = some k ↔
    ∃ i j, (ofDescription d).index? a = some i ∧ (ofDescription d).index? b = some j ∧
      ⟨i, j, k⟩ ∈ (ofDescription d).edges := by
  simp only [edgeKind?, Option.bind_eq_bind, Option.bind_eq_some_iff, Option.map_eq_some_iff,
    find?_joins_eq_some_iff (nodup_ends_ofDescription d)]
  constructor
  · rintro ⟨i, hi, j, hj, ⟨i', j', k'⟩, ⟨he, rfl, rfl⟩, rfl⟩
    exact ⟨i', j', hi, hj, he⟩
  · rintro ⟨i, j, hi, hj, he⟩
    exact ⟨i, hi, j, hj, _, ⟨he, rfl, rfl⟩, rfl⟩

theorem nameOf_of_index? {g : StepGraph} {n : String} {i : Nat} (h : g.index? n = some i) :
    g.nameOf i = n := by
  rw [nameOf, List.getD_eq_getElem?_getD, getElem?_of_indexIn? h]
  rfl

/-- Names of one node are equal. -/
theorem index?_inj {g : StepGraph} {i : Nat} (ha : g.index? a = some i)
    (hb : g.index? b = some i) : a = b :=
  (nameOf_of_index? ha).symm.trans (nameOf_of_index? hb)

theorem exists_index?_iff : (∃ i, (ofDescription d).index? a = some i) ↔ d.IsStep a := by
  rw [← Option.isSome_iff_exists]
  exact isSome_indexIn?_iff

/-- Two names stand for nodes of which the second one's step is so related to the first name. -/
theorem exists_nodes_iff {Q : Step → String → Prop} :
    (∃ i j, (ofDescription d).index? a = some i ∧ (ofDescription d).index? b = some j ∧
      ∃ s ∈ d.steps, (ofDescription d).index? s.name = some j ∧
        ∃ n, Q s n ∧ (ofDescription d).index? n = some i) ↔
      d.IsStep a ∧ ∃ s ∈ d.steps, s.name = b ∧ Q s a := by
  constructor
  · rintro ⟨i, j, hi, hj, s, hs, hs', n, hn, hn'⟩
    obtain rfl := index?_inj hi hn'
    exact ⟨exists_index?_iff.1 ⟨i, hi⟩, s, hs, index?_inj hs' hj, hn⟩
  · rintro ⟨ha, s, hs, rfl, hn⟩
    obtain ⟨i, hi⟩ := exists_index?_iff.2 ha
    obtain ⟨j, hj⟩ := exists_index?_iff.2 (List.mem_map_of_mem hs)
    exact ⟨i, j, hi, hj, s, hs, hj, a, hn, hi⟩

/-- An edge joins the nodes of two names exactly if one waits for the other. -/
theorem exists_hasEdge_iff : (∃ i j, (ofDescription d).index? a = some i ∧
    (ofDescription d).index? b = some j ∧ (ofDescription d).HasEdge i j) ↔ d.Waits a b := by
  simp only [hasEdge_ofDescription]
  exact exists_nodes_iff

theorem isSome_edgeKind?_iff :
    ((ofDescription d).edgeKind? a b).isSome = true ↔ d.Waits a b := by
  rw [← exists_hasEdge_iff, Option.isSome_iff_exists]
  simp only [edgeKind?_eq_some_iff]
  constructor
  · rintro ⟨k, i, j, hi, hj, he⟩
    exact ⟨i, j, hi, hj, hasEdge_of_mem he⟩
  · rintro ⟨i, j, hi, hj, ⟨i', j', k⟩, he, hij⟩
    obtain ⟨rfl, rfl⟩ := joins_iff.1 hij
    exact ⟨k, i', j', hi, hj, he⟩

/-- An edge is a dependency if a step of the second name lists the first one. -/
theorem edgeKind?_eq_dependency_iff : (ofDescription d).edgeKind? a b = some .dependency ↔
    d.IsStep a ∧ ∃ s ∈ d.steps, s.name = b ∧ a ∈ s.dependencies := by
  have hdep (i j : Nat) : ⟨i, j, .dependency⟩ ∈ (ofDescription d).edges ↔ _ :=
    depends_ofDescription
  simp only [edgeKind?_eq_some_iff, hdep]
  exact exists_nodes_iff

/-! ## Neighbours by names -/

/-- The node of an edge is the one that its name stands for. -/
theorem index?_nameOf_of_hasEdge {i j : Nat} (h : (ofDescription d).HasEdge i j) :
    (ofDescription d).index? ((ofDescription d).nameOf i) = some i ∧
      (ofDescription d).index? ((ofDescription d).nameOf j) = some j := by
  have hname {n : String} {k : Nat} (hk : (ofDescription d).index? n = some k) :
      (ofDescription d).index? ((ofDescription d).nameOf k) = some k := by
    rwa [nameOf_of_index? hk]
  obtain ⟨s, -, hj, n, -, hi⟩ := hasEdge_ofDescription.1 h
  exact ⟨hname hi, hname hj⟩

/-- Edges with one end in common have different other ends. -/
theorem nodup_map_filter {f : Edge → Nat} {p : Edge → Bool}
    (h : ∀ e e' : Edge, p e = true → p e' = true → f e = f e' → ends e = ends e') :
    (((ofDescription d).edges.reverse.filter p).map f).Nodup := by
  have hn : ((ofDescription d).edges.reverse.map ends).Nodup := by
    rw [List.map_reverse]
    exact List.nodup_reverse.2 (nodup_ends_ofDescription d)
  refine ((List.Nodup.of_map _ hn).filter _).map_on fun e he e' he' hf ↦ ?_
  obtain ⟨he, hp⟩ := List.mem_filter.1 he
  obtain ⟨he', hp'⟩ := List.mem_filter.1 he'
  exact List.inj_on_of_nodup_map hn he he' (h e e' hp hp' hf)

theorem nodup_predecessors (j : Nat) : ((ofDescription d).predecessors j).Nodup :=
  nodup_map_filter fun _ _ he he' hs ↦
    Prod.ext hs ((eq_of_beq he).trans (eq_of_beq he').symm)

theorem nodup_successors (i : Nat) : ((ofDescription d).successors i).Nodup :=
  nodup_map_filter fun _ _ he he' ht ↦
    Prod.ext ((eq_of_beq he).trans (eq_of_beq he').symm) ht

/-- Nodes that their names stand for are listed in increasing order of the names. -/
theorem pairwise_names {is : List Nat} (hn : is.Nodup)
    (his : ∀ i ∈ is, (ofDescription d).index? ((ofDescription d).nameOf i) = some i) :
    (sorted (is.map (ofDescription d).nameOf)).Pairwise
      fun a b ↦ Text.bytes a < Text.bytes b := by
  refine Description.pairwise_sorted (hn.map_on fun i hi j hj hij ↦ ?_)
  rw [← Option.some_inj, ← his i hi, ← his j hj, hij]

theorem pairwise_predecessorsOf (b : String) :
    ((ofDescription d).predecessorsOf b).Pairwise fun x y ↦ Text.bytes x < Text.bytes y := by
  rw [predecessorsOf]
  split
  · exact pairwise_names (nodup_predecessors _) fun i hi ↦
      (index?_nameOf_of_hasEdge (mem_predecessors_iff.1 hi)).1
  · exact .nil

theorem pairwise_successorsOf (a : String) :
    ((ofDescription d).successorsOf a).Pairwise fun x y ↦ Text.bytes x < Text.bytes y := by
  rw [successorsOf]
  split
  · exact pairwise_names (nodup_successors _) fun j hj ↦
      (index?_nameOf_of_hasEdge (mem_successors_iff.1 hj)).2
  · exact .nil

theorem mem_predecessorsOf_iff : a ∈ (ofDescription d).predecessorsOf b ↔ d.Waits a b := by
  rw [← exists_hasEdge_iff, predecessorsOf]
  cases hb : (ofDescription d).index? b with
  | none => simp
  | some j =>
      simp only [mem_sorted_names_iff, mem_predecessors_iff]
      constructor
      · rintro ⟨i, hij, rfl⟩
        exact ⟨i, j, (index?_nameOf_of_hasEdge hij).1, rfl, hij⟩
      · rintro ⟨i, k, hi, hk, hij⟩
        obtain rfl := Option.some.inj hk
        exact ⟨i, hij, nameOf_of_index? hi⟩

theorem mem_successorsOf_iff : b ∈ (ofDescription d).successorsOf a ↔ d.Waits a b := by
  rw [← exists_hasEdge_iff, successorsOf]
  cases ha : (ofDescription d).index? a with
  | none => simp
  | some i =>
      simp only [mem_sorted_names_iff, mem_successors_iff]
      constructor
      · rintro ⟨j, hij, rfl⟩
        exact ⟨i, j, rfl, (index?_nameOf_of_hasEdge hij).2, hij⟩
      · rintro ⟨k, j, hk, hj, hij⟩
        obtain rfl := Option.some.inj hk
        exact ⟨j, hij, nameOf_of_index? hj⟩

/-! ## All edges -/

/-- Where steps have distinct names, the kind of an edge is what the step at its end says. -/
theorem edgeKind?_eq (hd : (d.steps.map Step.name).Nodup) {s t : Step} (hs : s ∈ d.steps)
    (ht : t ∈ d.steps) : (ofDescription d).edgeKind? s.name t.name =
      if s.name ∈ t.dependencies then some .dependency
      else if t.RefersTo s.name then some .reference else none := by
  have honly {Q : Step → Prop} : (d.IsStep s.name ∧ ∃ u ∈ d.steps, u.name = t.name ∧ Q u) ↔
      Q t := by
    constructor
    · rintro ⟨-, u, hu, hut, hq⟩
      rwa [← List.inj_on_of_nodup_map hd hu ht hut]
    · exact fun hq ↦ ⟨List.mem_map_of_mem hs, t, ht, rfl, hq⟩
  have hdep : (ofDescription d).edgeKind? s.name t.name = some .dependency ↔
      s.name ∈ t.dependencies := edgeKind?_eq_dependency_iff.trans honly
  have hsome : ((ofDescription d).edgeKind? s.name t.name).isSome = true ↔
      s.name ∈ t.dependencies ∨ t.RefersTo s.name :=
    isSome_edgeKind?_iff.trans honly
  cases hk : (ofDescription d).edgeKind? s.name t.name with
  | none =>
      rw [hk] at hsome
      obtain ⟨hl, hr⟩ := not_or.1 fun h ↦ Bool.false_ne_true (hsome.2 h)
      rw [if_neg hl, if_neg hr]
  | some k =>
      rw [hk] at hdep hsome
      cases k with
      | dependency => rw [if_pos (hdep.1 rfl)]
      | reference =>
          have hl : s.name ∉ t.dependencies := fun h ↦ by cases hdep.2 h
          rw [if_neg hl, if_pos ((hsome.1 rfl).resolve_left hl)]

/-- The table of nodes lists every name with its node. -/
theorem mem_indices_iff {g : StepGraph} {n : String} {i : Nat} :
    (n, i) ∈ g.indices ↔ g.index? n = some i := by
  simp only [indices, List.mem_filterMap, Option.map_eq_some_iff, Prod.mk.injEq]
  constructor
  · rintro ⟨m, -, j, hj, rfl, rfl⟩
    exact hj
  · intro h
    refine ⟨n, ?_, i, h, rfl, rfl⟩
    rw [List.mem_eraseDups, sorted, (List.mergeSort_perm _ _).mem_iff]
    exact List.mem_of_getElem? (getElem?_of_indexIn? h)

/-- However steps are named, at most one edge leads from a node to another, and the neighbours of a
step are listed in increasing order, each step once.  One step is among those before another, and
the other among those after it, exactly if there is an edge, which is so if the other waits for it.
Where names are distinct they are the names of the nodes in order, each leads to its node, and an
edge is a dependency if the step at its end lists the one at its start, else a reference if it
refers to it at any depth. -/
theorem edges_exact (d : Description) :
    ((ofDescription d).edges.map ends).Nodup ∧
    (∀ a, ((ofDescription d).predecessorsOf a).Pairwise
        (fun x y ↦ Text.bytes x < Text.bytes y) ∧
      ((ofDescription d).successorsOf a).Pairwise fun x y ↦ Text.bytes x < Text.bytes y) ∧
    (∀ a b, (a ∈ (ofDescription d).predecessorsOf b ↔ b ∈ (ofDescription d).successorsOf a) ∧
      (b ∈ (ofDescription d).successorsOf a ↔
        ((ofDescription d).edgeKind? a b).isSome = true) ∧
      (((ofDescription d).edgeKind? a b).isSome = true ↔ d.Waits a b)) ∧
    ((d.steps.map Step.name).Nodup →
      (ofDescription d).nodes = d.steps.map Step.name ∧
      (∀ n i, ((n, i) ∈ (ofDescription d).indices ↔ (ofDescription d).nodes[i]? = some n) ∧
        ((ofDescription d).index? n = some i ↔ (ofDescription d).nodes[i]? = some n)) ∧
      ∀ s ∈ d.steps, ∀ t ∈ d.steps, (ofDescription d).edgeKind? s.name t.name =
        if s.name ∈ t.dependencies then some .dependency
        else if t.RefersTo s.name then some .reference else none) := by
  refine ⟨nodup_ends_ofDescription d,
    fun a ↦ ⟨pairwise_predecessorsOf a, pairwise_successorsOf a⟩, fun a b ↦ ⟨?_, ?_, ?_⟩,
    fun hd ↦ ⟨rfl, fun n i ↦ ?_, fun s hs t ↦ edgeKind?_eq hd hs⟩⟩
  · rw [mem_predecessorsOf_iff, mem_successorsOf_iff]
  · rw [mem_successorsOf_iff, isSome_edgeKind?_iff]
  · exact isSome_edgeKind?_iff
  · have hindex : (ofDescription d).index? n = some i ↔ (ofDescription d).nodes[i]? = some n :=
      indexIn?_eq_some_iff hd
    exact ⟨mem_indices_iff.trans hindex, hindex⟩

/-- Steps that name each other more than once and in more than one way. -/
def braided : Description where
  parameters := []
  tasks := [⟨"fit", "lab.tasks.fit", ["model"]⟩]
  steps := [
    ⟨"score", "fit", [.reference ⟨"train", none⟩], [("best", .list [.map [(.string "of",
      .reference ⟨"tune", some "model"⟩)], .reference ⟨"tune", some "model"⟩])], []⟩,
    ⟨"train", "fit", [], [], []⟩,
    ⟨"tune", "fit", [.list [.reference ⟨"train", some "model"⟩]], [], ["train", "train"]⟩]

/-- The theorem at such steps: what is listed and referred to is a dependency, what is referred to
in a nested argument is a reference, and no edge leads the other way. -/
theorem braided_edges : (braided.steps.map Step.name).Nodup ∧
    (ofDescription braided).edgeKind? "train" "tune" = some .dependency ∧
    (ofDescription braided).edgeKind? "tune" "score" = some .reference ∧
    (ofDescription braided).edgeKind? "score" "tune" = none ∧
    (ofDescription braided).index? "tune" = some 2 := by
  have hd : (braided.steps.map Step.name).Nodup := by decide
  obtain ⟨-, hindex, hkind⟩ := (edges_exact braided).2.2.2 hd
  have hscore : braided.steps[0] ∈ braided.steps := List.getElem_mem _
  have htrain : braided.steps[1] ∈ braided.steps := List.getElem_mem _
  have htune : braided.steps[2] ∈ braided.steps := List.getElem_mem _
  refine ⟨hd, (hkind _ htrain _ htune).trans ?_, (hkind _ htune _ hscore).trans ?_,
    (hkind _ hscore _ htune).trans ?_, (hindex "tune" 2).2.2 rfl⟩
  · rfl
  · rfl
  · rfl

end StepGraph

end LabPlan
