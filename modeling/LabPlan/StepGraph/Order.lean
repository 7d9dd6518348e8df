import LabPlan.Problem
import LabPlan.StepGraph.Walk

/-! # The order of execution

Steps are ordered by a walk along the edges, oldest edge first: a step left later comes earlier.
A node with an edge to itself stops the walk at once.  The order is then checked: every node that
a node waits for must come before it. -/

namespace LabPlan.StepGraph

/-- The nodes that wait for a node, the oldest edge first. -/
def successorsOldest (g : StepGraph) (i : Nat) : List Nat := (g.successors i).reverse

/-- The nodes seen by the walk from every node, in the order in which they are first seen. -/
def discovery (g : StepGraph) : List Nat :=
  (Walk.all g.successorsOldest g.nodes.length).seen.reverse

/-- The nodes, those left last by the walk first. -/
def candidateOrder (g : StepGraph) : List Nat :=
  (Walk.all g.successorsOldest g.nodes.length).left

/-- The node that is waited for but does not come before, for the first node of a list for which
there is one.  Of several the one with the oldest edge is found. -/
def misplaced? (g : StepGraph) (before : List Nat) : List Nat → Option Nat
  | [] => none
  | i :: is =>
    let missing := (g.predecessors i).filter fun p ↦ !(i :: before).contains p
    match missing.getLast? with
    | some p => some p
    | none => g.misplaced? (i :: before) is

/-- A node on a cycle, if the nodes cannot be ordered. -/
def blocked? (g : StepGraph) : Option Nat :=
  match g.discovery.find? fun i ↦ (g.successors i).contains i with
  | some i => some i
  | none => g.misplaced? [] g.candidateOrder

/-- The steps in an order in which each comes after those that it waits for. -/
def order (g : StepGraph) : Except Problem (List String) :=
  match g.blocked? with
  | some i => .error (.noOrder (g.nameOf i))
  | none => .ok (g.candidateOrder.map g.nameOf)

end LabPlan.StepGraph
