import LabPlan.StepGraph.Schedule
import Mathlib.Data.List.Nodup

/-! # The edges of a graph of steps

A description's graph has an edge from one node to another exactly if the second one's step names
the first one's: neither the kind of an edge nor what was named before matters. -/

namespace LabPlan.StepGraph

/-! ## Nodes -/

/-- The node of a name has that name. -/
theorem getElem?_of_indexIn? {nodes : List String} {name : String} {i : Nat}
    (h : indexIn? nodes name = some i) : nodes[i]? = some name := by
  induction nodes generalizing i with
  | nil => simp [indexIn?] at h
  | cons n ns ih =>
      rw [indexIn?] at h
      cases hn : indexIn? ns name with
      | some k =>
          rw [hn] at h
          obtain rfl := Option.some.inj h
          exact ih hn
      | none =>
          simp only [hn] at h
          split at h
          · rename_i he
            obtain rfl := Option.some.inj h
            simpa using he
          · simp at h

/-- A name has a node exactly if it is the name of one. -/
theorem isSome_indexIn?_iff {nodes : List String} {name : String} :
    (indexIn? nodes name).isSome = true ↔ name ∈ nodes := by
  induction nodes with
  | nil => simp [indexIn?]
  | cons n ns ih =>
      rw [indexIn?, List.mem_cons, ← ih]
      cases indexIn? ns name with
      | some k => simp
      | none =>
          by_cases h : n = name
          · simp [h]
          · simp [h, Ne.symm h]

/-- Where names are distinct, the node of a name is the place where it stands. -/
theorem indexIn?_eq_some_iff {nodes : List String} (hn : nodes.Nodup) {name : String} {i : Nat} :
    indexIn? nodes name = some i ↔ nodes[i]? = some name := by
  refine ⟨getElem?_of_indexIn?, fun h ↦ ?_⟩
  have hs := isSome_indexIn?_iff.2 (List.mem_of_getElem? h)
  obtain ⟨k, hk⟩ := Option.isSome_iff_exists.1 hs
  have hki : nodes[k]? = nodes[i]? := (getElem?_of_indexIn? hk).trans h.symm
  have hlt : k < nodes.length := (List.getElem?_eq_some_iff.1 (getElem?_of_indexIn? hk)).1
  rw [hk, (List.getElem?_inj hlt hn).1 hki]

/-- Sorted names are those of the nodes. -/
theorem mem_sorted_names_iff {g : StepGraph} {is : List Nat} {n : String} :
    n ∈ sorted (is.map g.nameOf) ↔ ∃ i ∈ is, g.nameOf i = n := by
  rw [sorted, (List.mergeSort_perm _ _).mem_iff, List.mem_map]

/-! ## Edges of a list -/

/-- Some edge of the list leads from one node to the other. -/
def Joined (es : List Edge) (i j : Nat) : Prop := ∃ e ∈ es, joins i j e = true

theorem joins_iff {i j : Nat} {e : Edge} : joins i j e = true ↔ e.source = i ∧ e.target = j := by
  simp [joins]

@[simp] theorem joined_append {es fs : List Edge} {i j : Nat} :
    Joined (es ++ fs) i j ↔ Joined es i j ∨ Joined fs i j := by
  simp only [Joined, List.mem_append, or_and_right, exists_or]

@[simp] theorem joined_singleton {a b i j : Nat} {k : EdgeKind} :
    Joined [⟨a, b, k⟩] i j ↔ i = a ∧ j = b := by
  simp only [Joined, List.mem_singleton, exists_eq_left, joins_iff]
  exact and_congr eq_comm eq_comm

/-- Joining nodes that are joined already changes nothing. -/
theorem joined_of_any {es : List Edge} {a b i j : Nat} (h : es.any (joins a b) = true) :
    (Joined es i j ∨ i = a ∧ j = b) ↔ Joined es i j := by
  refine or_iff_left_of_imp ?_
  rintro ⟨rfl, rfl⟩
  exact List.any_eq_true.1 h

/-- A dependency joins its two nodes and leaves the rest as it is. -/
theorem joined_addDependency {es : List Edge} {a b i j : Nat} :
    Joined (addDependency a b es) i j ↔ Joined es i j ∨ i = a ∧ j = b := by
  rw [addDependency]
  split
  · rename_i h
    have hj (e : Edge) : joins i j (if joins a b e then { e with kind := .dependency } else e) =
        joins i j e := by
      split <;> rfl
    rw [joined_of_any h]
    simp only [Joined, List.mem_map, exists_exists_and_eq_and, hj]
  · rw [joined_append, joined_singleton]

/-- A reference joins its two nodes and leaves the rest as it is. -/
theorem joined_addReference {es : List Edge} {a b i j : Nat} :
    Joined (addReference a b es) i j ↔ Joined es i j ∨ i = a ∧ j = b := by
  rw [addReference]
  split
  · rename_i h
    rw [joined_of_any h]
  · rw [joined_append, joined_singleton]

/-- What one step of a run makes true, the run makes true if some step does. -/
theorem foldl_iff {α β : Type} {P : β → Prop} {Q : α → Prop} {op : β → α → β}
    (hop : ∀ b a, P (op b a) ↔ P b ∨ Q a) (as : List α) (b : β) :
    P (as.foldl op b) ↔ P b ∨ ∃ a ∈ as, Q a := by
  induction as generalizing b with
  | nil => simp
  | cons a as ih => rw [List.foldl_cons, ih, hop, or_assoc, List.exists_mem_cons_iff]

/-- Joining many nodes to one, by whatever operation. -/
theorem joined_foldl {op : Nat → Nat → List Edge → List Edge}
    (hop : ∀ {es a b i j}, Joined (op a b es) i j ↔ Joined es i j ∨ i = a ∧ j = b)
    (sources : List Nat) {es : List Edge} {b i j : Nat} :
    Joined (sources.foldl (fun es a ↦ op a b es) es) i j ↔
      Joined es i j ∨ i ∈ sources ∧ j = b := by
  have hstep (es : List Edge) (a : Nat) :
      Joined (op a b es) i j ↔ Joined es i j ∨ i = a ∧ j = b := hop
  rw [foldl_iff (P := fun es ↦ Joined es i j) hstep]
  simp

/-- A step adds edges from the nodes that it names to its own, and no others. -/
theorem joined_addStep {nodes : List String} {es : List Edge} {s : Step} {i j : Nat} :
    Joined (addStep nodes es s) i j ↔ Joined es i j ∨
      indexIn? nodes s.name = some j ∧ ∃ n, s.Names n ∧ indexIn? nodes n = some i := by
  rw [addStep]
  cases indexIn? nodes s.name with
  | none => simp
  | some b =>
      simp only [joined_foldl joined_addReference, joined_foldl joined_addDependency, or_assoc,
        List.mem_filterMap, List.mem_map, Option.some.injEq, Step.names_iff]
      refine or_congr_right ⟨?_, ?_⟩
      · rintro (⟨⟨n, hn, hi⟩, rfl⟩ | ⟨⟨n, ⟨r, hr, rfl⟩, hi⟩, rfl⟩)
        · exact ⟨rfl, n, .inl hn, hi⟩
        · exact ⟨rfl, r.name, .inr ⟨r, hr, rfl⟩, hi⟩
      · rintro ⟨rfl, n, hn | ⟨r, hr, rfl⟩, hi⟩
        · exact .inl ⟨⟨n, hn, hi⟩, rfl⟩
        · exact .inr ⟨⟨r.name, ⟨r, hr, rfl⟩, hi⟩, rfl⟩

theorem joined_foldl_addStep {nodes : List String} (steps : List Step) {es : List Edge}
    {i j : Nat} : Joined (steps.foldl (addStep nodes) es) i j ↔ Joined es i j ∨
      ∃ s ∈ steps, indexIn? nodes s.name = some j ∧
        ∃ n, s.Names n ∧ indexIn? nodes n = some i :=
  foldl_iff (P := fun es ↦ Joined es i j) (fun _ s ↦ joined_addStep (s := s)) steps es

/-! ## One edge for two nodes -/

/-- The nodes that an edge joins. -/
def ends (e : Edge) : Nat × Nat := (e.source, e.target)

/-- Joining two nodes leaves the joined pairs as they are, or adds this one if it is new. -/
def AddsNew (op : Nat → Nat → List Edge → List Edge) : Prop :=
  ∀ a b es, (op a b es).map ends = es.map ends ∨
    (a, b) ∉ es.map ends ∧ (op a b es).map ends = es.map ends ++ [(a, b)]

theorem not_mem_ends_of_any {es : List Edge} {a b : Nat} (h : ¬ es.any (joins a b) = true) :
    (a, b) ∉ es.map ends := by
  intro hm
  obtain ⟨e, he, hab⟩ := List.mem_map.1 hm
  exact h (List.any_eq_true.2 ⟨e, he, joins_iff.2 (Prod.mk.inj hab)⟩)

theorem addsNew_addDependency : AddsNew addDependency := by
  intro a b es
  rw [addDependency]
  split
  · refine .inl ?_
    rw [List.map_map]
    refine List.map_congr_left fun e _ ↦ ?_
    rw [Function.comp_apply]
    split <;> rfl
  · rename_i h
    exact .inr ⟨not_mem_ends_of_any h, List.map_append⟩

theorem addsNew_addReference : AddsNew addReference := by
  intro a b es
  rw [addReference]
  split
  · exact .inl rfl
  · rename_i h
    exact .inr ⟨not_mem_ends_of_any h, List.map_append⟩

/-- Whatever nodes are joined to one, none of them is joined to it twice. -/
theorem AddsNew.nodup_foldl {op : Nat → Nat → List Edge → List Edge} (hop : AddsNew op) {b : Nat}
    (sources : List Nat) {es : List Edge} (h : (es.map ends).Nodup) :
    ((sources.foldl (fun es a ↦ op a b es) es).map ends).Nodup := by
  induction sources generalizing es with
  | nil => exact h
  | cons a as ih =>
      apply ih
      rcases hop a b es with he | ⟨hn, he⟩
      · rwa [he]
      · rw [he, ← List.concat_eq_append]
        exact h.concat hn

theorem nodup_ends_addStep {nodes : List String} {es : List Edge} (h : (es.map ends).Nodup)
    (s : Step) : ((addStep nodes es s).map ends).Nodup := by
  rw [addStep]
  cases indexIn? nodes s.name with
  | none => exact h
  | some b => exact addsNew_addReference.nodup_foldl _ (addsNew_addDependency.nodup_foldl _ h)

/-- However often a step is named, at most one edge leads from a node to another. -/
theorem nodup_ends_ofDescription (d : Description) :
    ((ofDescription d).edges.map ends).Nodup := by
  have h (nodes : List String) (steps : List Step) (es : List Edge) (h : (es.map ends).Nodup) :
      ((steps.foldl (addStep nodes) es).map ends).Nodup := by
    induction steps generalizing es with
    | nil => exact h
    | cons s ss ih => exact ih _ (nodup_ends_addStep h s)
  exact h _ d.steps [] List.nodup_nil

/-! ## Edges of a graph -/

/-- One node has an edge to the other. -/
def HasEdge (g : StepGraph) (i j : Nat) : Prop := Joined g.edges i j

theorem hasEdge_of_mem {g : StepGraph} {e : Edge} (h : e ∈ g.edges) :
    g.HasEdge e.source e.target := ⟨e, h, joins_iff.2 ⟨rfl, rfl⟩⟩

theorem mem_successors_iff {g : StepGraph} {i j : Nat} : j ∈ g.successors i ↔ g.HasEdge i j := by
  simp only [successors, HasEdge, Joined, joins_iff, List.mem_map, List.mem_filter,
    List.mem_reverse, beq_iff_eq, and_assoc]

theorem mem_predecessors_iff {g : StepGraph} {i j : Nat} :
    i ∈ g.predecessors j ↔ g.HasEdge i j := by
  simp only [predecessors, HasEdge, Joined, joins_iff, List.mem_map, List.mem_filter,
    List.mem_reverse, beq_iff_eq, and_assoc, and_comm]

theorem mem_successorsOldest_iff {g : StepGraph} {i j : Nat} :
    j ∈ g.successorsOldest i ↔ g.HasEdge i j := by
  rw [successorsOldest, List.mem_reverse, mem_successors_iff]

/-- The edges of a graph join its nodes. -/
def IsBounded (g : StepGraph) : Prop :=
  ∀ i j, g.HasEdge i j → i < g.nodes.length ∧ j < g.nodes.length

/-- A node has an edge to another if a step of its name is named by one of the other name. -/
theorem hasEdge_ofDescription {d : Description} {i j : Nat} :
    (ofDescription d).HasEdge i j ↔ ∃ s ∈ d.steps, (ofDescription d).index? s.name = some j ∧
      ∃ n, s.Names n ∧ (ofDescription d).index? n = some i := by
  refine (joined_foldl_addStep d.steps).trans (or_iff_right ?_)
  rintro ⟨e, he, -⟩
  exact List.not_mem_nil he

/-- The graph of a description has edges between its nodes only. -/
theorem isBounded_ofDescription (d : Description) : (ofDescription d).IsBounded := by
  intro i j h
  obtain ⟨s, -, hj, n, -, hi⟩ := hasEdge_ofDescription.1 h
  exact ⟨(List.getElem?_eq_some_iff.1 (getElem?_of_indexIn? hi)).1,
    (List.getElem?_eq_some_iff.1 (getElem?_of_indexIn? hj)).1⟩

theorem length_nodes {d : Description} : (ofDescription d).nodes.length = d.steps.length :=
  List.length_map _

theorem nameOf_eq {d : Description} {i : Nat} {s : Step} (h : d.steps[i]? = some s) :
    (ofDescription d).nameOf i = s.name := by
  simp [nameOf, ofDescription, h]

/-- Where steps have distinct names, edges join the places of the steps that name each other. -/
theorem hasEdge_iff_names {d : Description} (hd : (d.steps.map Step.name).Nodup) {i j : Nat} :
    (ofDescription d).HasEdge i j ↔
      ∃ s t, d.steps[i]? = some s ∧ d.steps[j]? = some t ∧ t.Names s.name := by
  have hindex {n : String} {k : Nat} : (ofDescription d).index? n = some k ↔
      ∃ s, d.steps[k]? = some s ∧ s.name = n := by
    refine (indexIn?_eq_some_iff hd).trans ?_
    simp
  rw [hasEdge_ofDescription]
  simp only [hindex]
  constructor
  · rintro ⟨t, ht, ⟨t', ht', hname⟩, n, hn, s, hs, rfl⟩
    obtain rfl : t' = t :=
      List.inj_on_of_nodup_map hd (List.mem_of_getElem? ht') ht hname
    exact ⟨s, t', hs, ht', hn⟩
  · rintro ⟨s, t, hs, ht, hn⟩
    exact ⟨t, List.mem_of_getElem? ht, ⟨t, ht, rfl⟩, s.name, hn, s, hs, rfl⟩

end LabPlan.StepGraph
