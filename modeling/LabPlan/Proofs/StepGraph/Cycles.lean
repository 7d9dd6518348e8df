import LabPlan.Proofs.StepGraph.Edges
import LabPlan.Proofs.StepGraph.Walk

/-! # Cycles, components and the order of execution

A graph without cycles is one without self-loops whose components are single nodes, and its nodes
have an order that every edge agrees with: the order in which the walk leaves them. -/

namespace LabPlan.StepGraph

open Relation

/-- No node is reached from itself. -/
def Acyclic (g : StepGraph) : Prop := ∀ i, ¬ TransGen g.HasEdge i i

variable {g : StepGraph}

/-! ## The walks of a graph -/

theorem leads_successors : Walk.Leads g.successors = g.HasEdge := by
  funext i j
  exact propext mem_successors_iff

theorem leads_successorsOldest : Walk.Leads g.successorsOldest = g.HasEdge := by
  funext i j
  exact propext mem_successorsOldest_iff

theorem leads_predecessors : Walk.Leads g.predecessors = Function.swap g.HasEdge := by
  funext i j
  exact propext mem_predecessors_iff

theorem IsBounded.successors (hg : g.IsBounded) : ∀ i, ∀ j ∈ g.successors i, j < g.nodes.length :=
  fun i j h ↦ (hg i j (mem_successors_iff.1 h)).2

theorem IsBounded.predecessors (hg : g.IsBounded) :
    ∀ i, ∀ j ∈ g.predecessors i, j < g.nodes.length :=
  fun i j h ↦ (hg j i (mem_predecessors_iff.1 h)).1

theorem IsBounded.successorsOldest (hg : g.IsBounded) :
    ∀ i, ∀ j ∈ g.successorsOldest i, j < g.nodes.length :=
  fun i j h ↦ (hg i j (mem_successorsOldest_iff.1 h)).2

theorem IsBounded.reaches_lt (hg : g.IsBounded) {i j : Nat} (hi : i < g.nodes.length)
    (h : ReflTransGen g.HasEdge i j) : j < g.nodes.length :=
  Walk.reaches_lt hg.successors hi (leads_successors ▸ h)

/-- The walk along edges finds the nodes that a node leads to. -/
theorem mem_reachable_iff (hg : g.IsBounded) {i j : Nat} (hi : i < g.nodes.length) :
    j ∈ g.reachable i ↔ ReflTransGen g.HasEdge i j := by
  rw [reachable, Walk.mem_seen_visit_iff hg.successors hi, leads_successors]

/-- The walk against edges finds the nodes that lead to a node. -/
theorem mem_reaching_iff (hg : g.IsBounded) {i j : Nat} (hi : i < g.nodes.length) :
    j ∈ g.reaching i ↔ ReflTransGen g.HasEdge j i := by
  rw [reaching, Walk.mem_seen_visit_iff hg.predecessors hi, leads_predecessors,
    reflTransGen_swap]

/-! ## Components -/

/-- A component has the nodes that lead to one of its nodes and back. -/
theorem mem_component_iff (hg : g.IsBounded) {i j : Nat} (hi : i < g.nodes.length) :
    j ∈ g.component i ↔ ReflTransGen g.HasEdge i j ∧ ReflTransGen g.HasEdge j i := by
  rw [component, List.mem_filter, Bool.and_eq_true, List.contains_iff_mem, List.contains_iff_mem,
    mem_reachable_iff hg hi, mem_reaching_iff hg hi, List.mem_range]
  exact and_iff_right_of_imp fun h ↦ hg.reaches_lt hi h.1

theorem mem_component_self (hg : g.IsBounded) {i : Nat} (hi : i < g.nodes.length) :
    i ∈ g.component i := (mem_component_iff hg hi).2 ⟨.refl, .refl⟩

theorem nodup_component (i : Nat) : (g.component i).Nodup := List.nodup_range.filter _

theorem mem_group_of_mem {is : List Nat} {found : List (List Nat)} {c : List Nat}
    (h : c ∈ found) : c ∈ g.group is found := by
  induction is generalizing found with
  | nil => exact h
  | cons i is ih =>
      rw [group]
      split
      · exact ih h
      · exact ih (List.mem_cons_of_mem _ h)

/-- Every node of the list lies in some component. -/
theorem exists_mem_group (hg : g.IsBounded) {is : List Nat} {found : List (List Nat)} {i : Nat}
    (hi : i ∈ is) (hlt : i < g.nodes.length) : ∃ c ∈ g.group is found, i ∈ c := by
  induction is generalizing found with
  | nil => exact absurd hi List.not_mem_nil
  | cons k is ih =>
      rw [group]
      rcases List.mem_cons.1 hi with rfl | hi
      · split
        · rename_i h
          obtain ⟨c, hc, hic⟩ := List.any_eq_true.1 h
          exact ⟨c, mem_group_of_mem hc, List.contains_iff_mem.1 hic⟩
        · exact ⟨_, mem_group_of_mem List.mem_cons_self, mem_component_self hg hlt⟩
      · split
        · exact ih hi
        · exact ih hi

/-- Only components are collected. -/
theorem eq_component_of_mem_group {is : List Nat} {found : List (List Nat)} {c : List Nat}
    (h : c ∈ g.group is found) : c ∈ found ∨ ∃ i ∈ is, c = g.component i := by
  induction is generalizing found with
  | nil => exact .inl h
  | cons k is ih =>
      rw [group] at h
      split at h
      · exact (ih h).imp_right fun ⟨i, hi, hc⟩ ↦ ⟨i, List.mem_cons_of_mem _ hi, hc⟩
      · rcases ih h with hf | ⟨i, hi, hc⟩
        · rcases List.mem_cons.1 hf with rfl | hf
          · exact .inr ⟨k, List.mem_cons_self, rfl⟩
          · exact .inl hf
        · exact .inr ⟨i, List.mem_cons_of_mem _ hi, hc⟩

/-- What is listed as a component is the component of some node. -/
theorem eq_component_of_mem (hg : g.IsBounded) {c : List Nat} (h : c ∈ g.components) :
    ∃ i < g.nodes.length, c = g.component i := by
  rcases eq_component_of_mem_group h with hc | ⟨i, hi, hc⟩
  · exact absurd hc List.not_mem_nil
  · exact ⟨i, List.mem_range.1 ((Walk.left_all_perm hg.successors).mem_iff.1 hi), hc⟩

theorem lt_of_mem_components (hg : g.IsBounded) {c : List Nat} (hc : c ∈ g.components) {i : Nat}
    (hi : i ∈ c) : i < g.nodes.length := by
  obtain ⟨k, hk, rfl⟩ := eq_component_of_mem hg hc
  exact hg.reaches_lt hk ((mem_component_iff hg hk).1 hi).1

/-- Every node lies in a component that is listed. -/
theorem exists_mem_components (hg : g.IsBounded) {i : Nat} (hi : i < g.nodes.length) :
    ∃ c ∈ g.components, i ∈ c :=
  exists_mem_group hg ((Walk.left_all_perm hg.successors).mem_iff.2 (List.mem_range.2 hi)) hi

/-- Nodes that are in one component with a third are in one component with each other. -/
theorem mem_component_trans (hg : g.IsBounded) {i j k : Nat} (hi : i < g.nodes.length)
    (hk : k < g.nodes.length) (hij : j ∈ g.component i) (hkj : j ∈ g.component k) :
    i ∈ g.component k := by
  obtain ⟨hij, hji⟩ := (mem_component_iff hg hi).1 hij
  obtain ⟨hkj, hjk⟩ := (mem_component_iff hg hk).1 hkj
  exact (mem_component_iff hg hk).2 ⟨hkj.trans hji, hij.trans hjk⟩

theorem pairwise_disjoint_group (hg : g.IsBounded) {is : List Nat} {found : List (List Nat)}
    (his : ∀ i ∈ is, i < g.nodes.length)
    (hc : ∀ c ∈ found, ∃ i < g.nodes.length, c = g.component i)
    (hd : found.Pairwise List.Disjoint) : (g.group is found).Pairwise List.Disjoint := by
  induction is generalizing found with
  | nil => exact hd
  | cons i is ih =>
      obtain ⟨hi, his⟩ := List.forall_mem_cons.1 his
      rw [group]
      split
      · exact ih his hc hd
      · rename_i hnone
        refine ih his (List.forall_mem_cons.2 ⟨⟨i, hi, rfl⟩, hc⟩) (List.pairwise_cons.2 ⟨?_, hd⟩)
        intro c hcf j hij hcj
        obtain ⟨k, hk, rfl⟩ := hc c hcf
        have hik := mem_component_trans hg hi hk hij hcj
        exact hnone (List.any_eq_true.2 ⟨_, hcf, List.contains_iff_mem.2 hik⟩)

/-- No node is listed in two components. -/
theorem pairwise_disjoint_components (hg : g.IsBounded) :
    g.components.Pairwise List.Disjoint := by
  refine pairwise_disjoint_group hg (fun i hi ↦ ?_) (List.forall_mem_nil _) .nil
  exact List.mem_range.1 ((Walk.left_all_perm hg.successors).mem_iff.1 hi)

/-! ## Graphs without cycles -/

theorem selfLoops_eq_nil_iff : g.selfLoops = [] ↔ ∀ i, ¬ g.HasEdge i i := by
  simp only [selfLoops, HasEdge, Joined, joins_iff, List.map_eq_nil_iff, List.filter_eq_nil_iff,
    beq_iff_eq]
  constructor
  · rintro h i ⟨e, he, rfl, ht⟩
    exact h e he ht.symm
  · intro h e he hs
    exact h e.source ⟨e, he, rfl, hs.symm⟩

theorem cycles_eq_nil_iff : g.cycles = [] ↔ ∀ c ∈ g.components, c.length < 2 := by
  simp [cycles]

/-- Two nodes of a component that is a single node are one. -/
theorem eq_of_length_lt_two {c : List Nat} (h : c.length < 2) {i j : Nat} (hi : i ∈ c)
    (hj : j ∈ c) : i = j := by
  match c, h with
  | [k], _ => rw [List.mem_singleton.1 hi, List.mem_singleton.1 hj]

/-- A graph has no cycles exactly if no node has an edge to itself and every component is a single
node. -/
theorem acyclic_iff (hg : g.IsBounded) : g.Acyclic ↔ g.selfLoops = [] ∧ g.cycles = [] := by
  rw [selfLoops_eq_nil_iff, cycles_eq_nil_iff]
  constructor
  · intro h
    refine ⟨fun i hi ↦ h i (.single hi), fun c hc ↦ ?_⟩
    obtain ⟨i, hi, rfl⟩ := eq_component_of_mem hg hc
    have hsub : g.component i ⊆ [i] := by
      intro j hj
      obtain ⟨hij, hji⟩ := (mem_component_iff hg hi).1 hj
      rcases reflTransGen_iff_eq_or_transGen.1 hij with rfl | hij
      · exact List.mem_singleton_self j
      · exact absurd (hij.trans_left hji) (h i)
    have := ((nodup_component i).subperm hsub).length_le
    exact Nat.lt_succ_of_le this
  · rintro ⟨hloop, hc⟩ i hii
    obtain ⟨k, hik, hki⟩ := TransGen.head'_iff.1 hii
    obtain ⟨c, hcm, hi⟩ := exists_mem_components hg (hg i k hik).1
    obtain ⟨m, hm, rfl⟩ := eq_component_of_mem hg hcm
    obtain ⟨hmi, him⟩ := (mem_component_iff hg hm).1 hi
    have hk : k ∈ g.component m := (mem_component_iff hg hm).2 ⟨hmi.tail hik, hki.trans him⟩
    rw [eq_of_length_lt_two (hc _ hcm) hi hk] at hik
    exact hloop k hik

/-! ## The order of execution -/

/-- The order that is tried has every node once. -/
theorem candidateOrder_perm (hg : g.IsBounded) :
    g.candidateOrder.Perm (List.range g.nodes.length) := Walk.left_all_perm hg.successorsOldest

/-- Without cycles, a node comes after all that it waits for. -/
theorem mem_before_of_hasEdge (hg : g.IsBounded) (ha : g.Acyclic) {before after : List Nat}
    {i j : Nat} (h : g.candidateOrder = before ++ i :: after) (hj : g.HasEdge j i) :
    j ∈ before := by
  have hord := (Walk.all_after hg.successorsOldest).sound.ordered
  rw [leads_successorsOldest] at hord
  change g.candidateOrder.Pairwise _ at hord
  rw [h, List.pairwise_append, List.pairwise_cons] at hord
  have hmem : j ∈ before ++ i :: after := by
    rw [← h]
    exact (candidateOrder_perm hg).mem_iff.2 (List.mem_range.2 (hg j i hj).1)
  rcases List.mem_append.1 hmem with hb | hmem
  · exact hb
  · rcases List.mem_cons.1 hmem with rfl | hmem
    · exact absurd (.single hj) (ha j)
    · have hij := hord.2.1.1 j hmem (mem_successorsOldest_iff.2 hj)
      exact absurd (hij.tail hj) (ha i)

/-- No node is misplaced if each comes after all that have an edge to it. -/
theorem misplaced?_eq_none {before is : List Nat}
    (h : ∀ done i rest, is = done ++ i :: rest → ∀ p ∈ g.predecessors i, p ∈ before ∨ p ∈ done) :
    g.misplaced? before is = none := by
  induction is generalizing before with
  | nil => rfl
  | cons i is ih =>
      have hmissing :
          (g.predecessors i).filter (fun p ↦ !(i :: before).contains p) = [] := by
        rw [List.filter_eq_nil_iff]
        intro p hp
        have hb := (h [] i is rfl p hp).resolve_right List.not_mem_nil
        simp [hb]
      rw [misplaced?, hmissing]
      apply ih
      intro done k rest hk p hp
      rcases h (i :: done) k rest (by rw [hk]; rfl) p hp with hb | hd
      · exact .inl (List.mem_cons_of_mem _ hb)
      · rcases List.mem_cons.1 hd with rfl | hd
        · exact .inl List.mem_cons_self
        · exact .inr hd

/-- Without cycles there is an order. -/
theorem order_of_acyclic (hg : g.IsBounded) (ha : g.Acyclic) :
    g.order = .ok (g.candidateOrder.map g.nameOf) := by
  have hloop : g.discovery.find? (fun i ↦ (g.successors i).contains i) = none := by
    rw [List.find?_eq_none]
    intro i _ hi
    exact ha i (.single (mem_successors_iff.1 (List.contains_iff_mem.1 hi)))
  have hplaced : g.misplaced? [] g.candidateOrder = none :=
    misplaced?_eq_none fun done i rest h p hp ↦
      .inr (mem_before_of_hasEdge hg ha h (mem_predecessors_iff.1 hp))
  rw [order, blocked?, hloop, hplaced]

/-! ## The failure to order -/

/-- A graph is without cycles if its edges lead upwards. -/
theorem acyclic_of_lt (f : Nat → Nat) (h : ∀ i j, g.HasEdge i j → f i < f j) : g.Acyclic := by
  have hpath {i j : Nat} (hij : TransGen g.HasEdge i j) : f i < f j := by
    induction hij with
    | single hij => exact h _ _ hij
    | tail _ hjk ih => exact ih.trans (h _ _ hjk)
  exact fun i hi ↦ Nat.lt_irrefl _ (hpath hi)

/-- A misplaced node has an edge to one that it does not come before. -/
theorem exists_of_misplaced? {before is : List Nat} {p : Nat}
    (h : g.misplaced? before is = some p) : ∃ done i rest, is = done ++ i :: rest ∧
      g.HasEdge p i ∧ p ≠ i ∧ p ∉ done ∧ p ∉ before := by
  induction is generalizing before with
  | nil => cases h
  | cons i is ih =>
      rw [misplaced?] at h
      split at h
      · rename_i q hq
        obtain rfl := Option.some.inj h
        obtain ⟨hp, hn⟩ := List.mem_filter.1 (List.mem_of_getLast? hq)
        have hnot : q ∉ i :: before := by simpa using hn
        obtain ⟨hqi, hqb⟩ := List.ne_and_not_mem_of_not_mem_cons hnot
        exact ⟨[], i, is, rfl, mem_predecessors_iff.1 hp, hqi, List.not_mem_nil, hqb⟩
      · obtain ⟨done, k, rest, rfl, hedge, hne, hd, hb⟩ := ih h
        obtain ⟨hpi, hpb⟩ := List.ne_and_not_mem_of_not_mem_cons hb
        exact ⟨i :: done, k, rest, rfl, hedge, hne, List.not_mem_cons_of_ne_of_not_mem hpi hd, hpb⟩

/-- If no node is misplaced, a node comes after all others that it waits for. -/
theorem mem_of_misplaced?_eq_none {before is : List Nat} (h : g.misplaced? before is = none) :
    ∀ done i rest, is = done ++ i :: rest →
      ∀ p, g.HasEdge p i → p ≠ i → p ∈ before ∨ p ∈ done := by
  induction is generalizing before with
  | nil =>
      intro done i rest he
      simp at he
  | cons k is ih =>
      rw [misplaced?] at h
      split at h
      · cases h
      · rename_i hlast
        have hmissing := List.filter_eq_nil_iff.1 (List.getLast?_eq_none_iff.1 hlast)
        intro done i rest he p hp hne
        cases done with
        | nil =>
            obtain ⟨rfl, rfl⟩ := List.cons.inj he
            have := hmissing p (mem_predecessors_iff.2 hp)
            simp [hne] at this
            exact .inl this
        | cons d done =>
            obtain ⟨rfl, rfl⟩ := List.cons.inj he
            rcases ih h done i rest rfl p hp hne with hb | hd
            · rcases List.mem_cons.1 hb with rfl | hb
              · exact .inr List.mem_cons_self
              · exact .inl hb
            · exact .inr (List.mem_cons_of_mem _ hd)

/-- A node that blocks the order lies on a cycle. -/
theorem transGen_of_blocked? (hg : g.IsBounded) {p : Nat} (h : g.blocked? = some p) :
    p < g.nodes.length ∧ TransGen g.HasEdge p p := by
  rw [blocked?] at h
  split at h
  · rename_i i hi
    obtain rfl := Option.some.inj h
    have hmem := List.find?_some hi
    have hloop : g.HasEdge i i := mem_successors_iff.1 (List.contains_iff_mem.1 hmem)
    exact ⟨(hg i i hloop).1, .single hloop⟩
  · obtain ⟨done, i, rest, hcand, hedge, hne, hd, -⟩ := exists_of_misplaced? h
    have hp : p ∈ rest := by
      have hmem : p ∈ done ++ i :: rest :=
        hcand ▸ (candidateOrder_perm hg).mem_iff.2 (List.mem_range.2 (hg p i hedge).1)
      simpa [hd, hne] using hmem
    -- The node is left before the one that waits for it, so the walk came back to it.
    have hord := (Walk.all_after hg.successorsOldest).sound.ordered
    rw [leads_successorsOldest] at hord
    change g.candidateOrder.Pairwise _ at hord
    rw [hcand, List.pairwise_append, List.pairwise_cons] at hord
    exact ⟨(hg p i hedge).1, .head hedge (hord.2.1.1 p hp (mem_successorsOldest_iff.2 hedge))⟩

/-- If nothing blocks the order, there are no cycles. -/
theorem acyclic_of_blocked? (hg : g.IsBounded) (h : g.blocked? = none) : g.Acyclic := by
  rw [blocked?] at h
  split at h
  · cases h
  · rename_i hloop
    have hne {i j : Nat} (hij : g.HasEdge i j) : i ≠ j := by
      rintro rfl
      have hseen : i ∈ g.discovery :=
        List.mem_reverse.2 ((Walk.mem_seen_all_iff hg.successorsOldest).2 (hg i i hij).1)
      exact List.find?_eq_none.1 hloop i hseen (List.contains_iff_mem.2 (mem_successors_iff.2 hij))
    -- Every edge leads to a later place, and so does every path: none leads back.
    refine acyclic_of_lt g.candidateOrder.idxOf fun i j hij ↦ ?_
    have hj : j ∈ g.candidateOrder :=
      (candidateOrder_perm hg).mem_iff.2 (List.mem_range.2 (hg i j hij).2)
    obtain ⟨done, rest, hcand⟩ := List.append_of_mem hj
    have hi : i ∈ done :=
      (mem_of_misplaced?_eq_none h done j rest hcand i hij (hne hij)).resolve_left List.not_mem_nil
    have hnodup : g.candidateOrder.Nodup := (candidateOrder_perm hg).nodup_iff.2 List.nodup_range
    rw [hcand] at hnodup ⊢
    have hnot : j ∉ done := fun hm ↦
      (List.nodup_append.1 hnodup).2.2 _ hm _ List.mem_cons_self rfl
    rw [List.idxOf_append_of_mem hi, List.idxOf_append_of_notMem hnot]
    exact (List.idxOf_lt_length_iff.2 hi).trans_le (Nat.le_add_right _ _)

/-- There is no order exactly if there are cycles, and the node that is named lies on one. -/
theorem order_eq_error (hg : g.IsBounded) :
    ((∃ p, g.order = .error p) ↔ ¬ g.Acyclic) ∧
      ∀ p, g.order = .error p → ∃ i < g.nodes.length, p = .noOrder (g.nameOf i) ∧
        TransGen g.HasEdge i i := by
  rw [order]
  cases h : g.blocked? with
  | none =>
      refine ⟨iff_of_false ?_ (not_not_intro (acyclic_of_blocked? hg h)), fun p hp ↦ by cases hp⟩
      rintro ⟨p, hp⟩
      cases hp
  | some i =>
      obtain ⟨hi, hii⟩ := transGen_of_blocked? hg h
      refine ⟨iff_of_true ⟨_, rfl⟩ fun ha ↦ ha i hii, fun p hp ↦ ⟨i, hi, ?_, hii⟩⟩
      exact (Except.error.inj hp).symm

end LabPlan.StepGraph
