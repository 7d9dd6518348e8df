import LabPlan.StepGraph.Walk
import Mathlib.Data.Finset.Card
import Mathlib.Data.List.Nodup
import Mathlib.Data.List.Perm.Subperm
import Mathlib.Logic.Relation

/-! # What a depth-first walk does

A node is *open* while it is seen and not left: it lies on the chain of visits that are under way.
Every open node leads to the node that is visited next, and this is what makes the order in which
nodes are left meaningful.  An edge that goes against this order goes back to a node that was open,
and so closes a cycle.  Nothing is assumed of the graph. -/

namespace LabPlan.StepGraph.Walk

open Relation

/-- There is an edge from one node to the other. -/
def Leads (next : Nat → List Nat) (i j : Nat) : Prop := j ∈ next i

/-- The node is on the chain of visits under way. -/
def IsOpen (w : Walk) (i : Nat) : Prop := i ∈ w.seen ∧ i ∉ w.left

/-- What holds of a walk at all times. -/
structure Sound (next : Nat → List Nat) (w : Walk) : Prop where
  seen : ∀ i ∈ w.left, i ∈ w.seen
  nodup : w.left.Nodup
  /-- A node is left after its successors are, but for those that it closes a cycle with. -/
  settled : ∀ i ∈ w.left, ∀ j ∈ next i, j ∈ w.seen ∧ (j ∈ w.left ∨ TransGen (Leads next) j i)
  /-- An edge to a node that was left later closes a cycle. -/
  ordered : w.left.Pairwise fun i j ↦ i ∈ next j → TransGen (Leads next) i j

/-- `After next w is w'`: visiting the nodes `is` has made `w'` out of `w`. -/
structure After (next : Nat → List Nat) (w : Walk) (is : List Nat) (w' : Walk) : Prop where
  sound : w'.Sound next
  visited : ∀ i ∈ is, i ∈ w'.seen
  /-- What was seen before is open after the visits if it was so before. -/
  kept : ∀ j ∈ w.seen, j ∈ w'.seen ∧ (j ∈ w'.left ↔ j ∈ w.left)
  /-- What is newly seen is left again, and was reached from one of the nodes. -/
  fresh : ∀ j ∈ w'.seen, j ∉ w.seen → j ∈ w'.left ∧ ∃ i ∈ is, ReflTransGen (Leads next) i j

variable {next : Nat → List Nat} {size : Nat}

theorem sound_start : start.Sound next :=
  ⟨by simp [start], List.nodup_nil, by simp [start], List.Pairwise.nil⟩

theorem not_isOpen_start (i : Nat) : ¬ start.IsOpen i := fun h ↦ List.not_mem_nil h.1

namespace After

variable {w w' w'' : Walk} {is js : List Nat}

theorem refl (hw : w.Sound next) : After next w [] w :=
  ⟨hw, by simp, fun _ hj ↦ ⟨hj, Iff.rfl⟩, fun _ hj hn ↦ absurd hj hn⟩

/-- A node that is seen needs no visit. -/
theorem of_seen (hw : w.Sound next) {i : Nat} (hi : i ∈ w.seen) : After next w [i] w :=
  ⟨hw, by simpa using hi, fun _ hj ↦ ⟨hj, Iff.rfl⟩, fun _ hj hn ↦ absurd hj hn⟩

theorem trans (h : After next w is w') (k : After next w' js w'') :
    After next w (is ++ js) w'' where
  sound := k.sound
  visited := by
    intro i hi
    rcases List.mem_append.1 hi with hi | hi
    · exact (k.kept i (h.visited i hi)).1
    · exact k.visited i hi
  kept := by
    intro j hj
    obtain ⟨hj', hl'⟩ := h.kept j hj
    obtain ⟨hj'', hl''⟩ := k.kept j hj'
    exact ⟨hj'', hl''.trans hl'⟩
  fresh := by
    intro j hj hn
    by_cases hj' : j ∈ w'.seen
    · obtain ⟨hl, i, hi, hij⟩ := h.fresh j hj' hn
      exact ⟨(k.kept j hj').2.2 hl, i, List.mem_append_left _ hi, hij⟩
    · obtain ⟨hl, i, hi, hij⟩ := k.fresh j hj hj'
      exact ⟨hl, i, List.mem_append_right _ hi, hij⟩

/-- Visits open no node for good. -/
theorem isOpen (h : After next w is w') {j : Nat} (hj : w'.IsOpen j) : w.IsOpen j := by
  by_cases hs : j ∈ w.seen
  · exact ⟨hs, fun hl ↦ hj.2 ((h.kept j hs).2.2 hl)⟩
  · exact absurd (h.fresh j hj.1 hs).1 hj.2

end After

/-! ## Room

The nodes that are not seen yet bound the chain of visits. -/

/-- The nodes that are not seen yet. -/
def unseen (size : Nat) (w : Walk) : Finset Nat := (Finset.range size).filter (· ∉ w.seen)

theorem unseen_subset {w w' : Walk} (h : ∀ i ∈ w.seen, i ∈ w'.seen) :
    unseen size w' ⊆ unseen size w := by
  intro i hi
  rw [unseen, Finset.mem_filter] at hi ⊢
  exact ⟨hi.1, fun hs ↦ hi.2 (h i hs)⟩

/-- How many nodes are not seen yet. -/
def room (size : Nat) (w : Walk) : Nat := (unseen size w).card

theorem room_le {w w' : Walk} (h : ∀ i ∈ w.seen, i ∈ w'.seen) : room size w' ≤ room size w :=
  Finset.card_le_card (unseen_subset h)

theorem room_lt {w w' : Walk} {i : Nat} (h : ∀ j ∈ w.seen, j ∈ w'.seen) (hi : i < size)
    (hn : i ∉ w.seen) (hs : i ∈ w'.seen) : room size w' < room size w := by
  apply Finset.card_lt_card
  refine (Finset.ssubset_iff_of_subset (unseen_subset h)).2 ⟨i, ?_, ?_⟩
  · exact Finset.mem_filter.2 ⟨Finset.mem_range.2 hi, hn⟩
  · exact fun hf ↦ (Finset.mem_filter.1 hf).2 hs

theorem room_start : room size start = size := by simp [room, unseen, start]

/-! ## One visit, and many -/

/-- What a visit needs: every open node leads to the one visited. -/
def Ready (next : Nat → List Nat) (w : Walk) (i : Nat) : Prop :=
  ∀ j, w.IsOpen j → TransGen (Leads next) j i

/-- Visits one after the other, each as it should be. -/
theorem foldl_after {visit : Walk → Nat → Walk} {n : Nat} (is : List Nat) (w : Walk)
    (hvisit : ∀ w i, w.Sound next → i < size → room size w ≤ n → Ready next w i →
      After next w [i] (visit w i))
    (hw : w.Sound next) (his : ∀ i ∈ is, i < size) (hn : room size w ≤ n)
    (hr : ∀ i ∈ is, Ready next w i) : After next w is (is.foldl visit w) := by
  induction is generalizing w with
  | nil => exact .refl hw
  | cons i is ih =>
      have h := hvisit w i hw (his i List.mem_cons_self) hn (hr i List.mem_cons_self)
      refine h.trans (ih _ h.sound (fun j hj ↦ his j (List.mem_cons_of_mem _ hj)) ?_ ?_)
      · exact (room_le fun j hj ↦ (h.kept j hj).1).trans hn
      · exact fun k hk j hj ↦ hr k (List.mem_cons_of_mem _ hk) j (h.isOpen hj)

/-- Leaving a node when its successors have been visited. -/
theorem leave_after {w w' : Walk} {i : Nat} (hw : w.Sound next) (hi : i ∉ w.seen)
    (hr : Ready next w i) (h : After next { w with seen := i :: w.seen } (next i) w') :
    After next w [i] { w' with left := i :: w'.left } := by
  have hil : i ∉ w'.left := fun hl ↦
    hi (hw.seen i ((h.kept i List.mem_cons_self).2.1 hl))
  refine ⟨⟨?_, List.nodup_cons.2 ⟨hil, h.sound.nodup⟩, ?_,
    List.pairwise_cons.2 ⟨?_, h.sound.ordered⟩⟩, ?_, ?_, ?_⟩
  · intro j hj
    rcases List.mem_cons.1 hj with rfl | hj
    · exact (h.kept j List.mem_cons_self).1
    · exact h.sound.seen j hj
  · intro k hk j hj
    rcases List.mem_cons.1 hk with rfl | hk
    · refine ⟨h.visited j hj, ?_⟩
      by_cases hs : j ∈ k :: w.seen
      · rcases List.mem_cons.1 hs with rfl | hs'
        · exact .inl List.mem_cons_self
        · by_cases hl : j ∈ w.left
          · exact .inl (List.mem_cons_of_mem _ ((h.kept j hs).2.2 hl))
          · exact .inr (hr j ⟨hs', hl⟩)
      · exact .inl (List.mem_cons_of_mem _ (h.fresh j (h.visited j hj) hs).1)
    · obtain ⟨hs, hl⟩ := h.sound.settled k hk j hj
      exact ⟨hs, hl.imp_left (List.mem_cons_of_mem _)⟩
  · -- The node was open all the while, so an edge to it closes a cycle.
    intro j hj hij
    exact (h.sound.settled j hj i hij).2.resolve_left hil
  · intro j hj
    obtain rfl := List.mem_singleton.1 hj
    exact (h.kept j List.mem_cons_self).1
  · intro j hj
    obtain ⟨hs, hl⟩ := h.kept j (List.mem_cons_of_mem _ hj)
    refine ⟨hs, ?_⟩
    rw [List.mem_cons, hl]
    exact or_iff_right fun e ↦ hi (e ▸ hj)
  · intro j hj hn
    refine ⟨?_, i, List.mem_singleton_self i, ?_⟩
    · by_cases e : j = i
      · exact e ▸ List.mem_cons_self
      · exact List.mem_cons_of_mem _ (h.fresh j hj (by simp [e, hn])).1
    · by_cases e : j = i
      · exact e ▸ .refl
      · obtain ⟨k, hk, hkj⟩ := (h.fresh j hj (by simp [e, hn])).2
        exact .head hk hkj

theorem visit_after (hb : ∀ i, ∀ j ∈ next i, j < size) {n : Nat} (w : Walk) (i : Nat)
    (hw : w.Sound next) (hi : i < size) (hn : room size w ≤ n) (hr : Ready next w i) :
    After next w [i] (visit next n w i) := by
  induction n generalizing w i with
  | zero =>
      have hs : i ∈ w.seen := by
        by_contra hs
        have hlt : room size ⟨i :: w.seen, []⟩ < room size w :=
          room_lt (fun j ↦ List.mem_cons_of_mem i) hi hs List.mem_cons_self
        omega
      exact .of_seen hw hs
  | succ n ih =>
      rw [visit]
      by_cases hs : i ∈ w.seen
      · rw [if_pos (by simpa using hs)]
        exact .of_seen hw hs
      · rw [if_neg (by simpa using hs)]
        apply leave_after hw hs hr
        have hw' : Sound next { w with seen := i :: w.seen } :=
          ⟨fun j hj ↦ List.mem_cons_of_mem _ (hw.seen j hj), hw.nodup,
            fun j hj k hk ↦ (hw.settled j hj k hk).imp_left (List.mem_cons_of_mem _), hw.ordered⟩
        refine foldl_after (next i) _ ih hw' (hb i) ?_ ?_
        · have : room size { w with seen := i :: w.seen } < room size w :=
            room_lt (fun j ↦ List.mem_cons_of_mem i) hi hs List.mem_cons_self
          omega
        · intro k hk j hj
          by_cases e : j = i
          · exact e ▸ .single hk
          · have hj' : w.IsOpen j := ⟨(List.mem_cons.1 hj.1).resolve_left e, hj.2⟩
            exact (hr j hj').tail hk

/-! ## Whole walks -/

theorem reaches_lt (hb : ∀ i, ∀ j ∈ next i, j < size) {i j : Nat} (hi : i < size)
    (h : ReflTransGen (Leads next) i j) : j < size := by
  cases h with
  | refl => exact hi
  | tail _ h => exact hb _ _ h

/-- A visit that starts with nothing seen sees what can be reached. -/
theorem mem_seen_visit_iff (hb : ∀ i, ∀ j ∈ next i, j < size) {i j : Nat} (hi : i < size) :
    j ∈ (visit next size start i).seen ↔ ReflTransGen (Leads next) i j := by
  have h := visit_after hb start i sound_start hi room_start.le
    fun k hk ↦ absurd hk (not_isOpen_start k)
  have hleft (k : Nat) (hk : k ∈ (visit next size start i).seen) :=
    (h.fresh k hk List.not_mem_nil)
  constructor
  · intro hj
    obtain ⟨_, k, hk, hkj⟩ := hleft j hj
    exact List.mem_singleton.1 hk ▸ hkj
  · intro hj
    induction hj with
    | refl => exact h.visited i (List.mem_singleton_self i)
    | tail _ hk ih => exact (h.sound.settled _ (hleft _ ih).1 _ hk).1

theorem all_after (hb : ∀ i, ∀ j ∈ next i, j < size) :
    After next start (List.range size) (all next size) :=
  foldl_after _ _ (visit_after hb) sound_start (fun _ ↦ List.mem_range.1) room_start.le
    fun _ _ j hj ↦ absurd hj (not_isOpen_start j)

/-- A walk from every node sees every node. -/
theorem mem_seen_all_iff (hb : ∀ i, ∀ j ∈ next i, j < size) {i : Nat} :
    i ∈ (all next size).seen ↔ i < size := by
  have h := all_after hb
  refine ⟨fun hi ↦ ?_, fun hi ↦ h.visited i (List.mem_range.2 hi)⟩
  obtain ⟨_, k, hk, hki⟩ := h.fresh i hi List.not_mem_nil
  exact reaches_lt hb (List.mem_range.1 hk) hki

/-- A walk from every node leaves every node once. -/
theorem left_all_perm (hb : ∀ i, ∀ j ∈ next i, j < size) :
    (all next size).left.Perm (List.range size) := by
  have h := all_after hb
  rw [List.perm_ext_iff_of_nodup h.sound.nodup List.nodup_range]
  intro i
  rw [List.mem_range, ← mem_seen_all_iff hb]
  exact ⟨h.sound.seen i, fun hi ↦ (h.fresh i hi List.not_mem_nil).1⟩

end LabPlan.StepGraph.Walk
