import LabPlan.StepGraph.Basic

/-! # Depth-first walks

A walk visits a node, then whatever can be reached from it and was not seen before, and leaves the
node when all of that is done.  The order in which nodes are left gives an order of execution and
the order of the components.  A chain of visits never meets a node twice, so it is no longer than
there are nodes. -/

namespace LabPlan.StepGraph

/-- What a walk has seen so far, and the nodes it has left, the last one first. -/
structure Walk where
  seen : List Nat
  left : List Nat
deriving DecidableEq, Repr

namespace Walk

/-- Nothing seen yet. -/
def start : Walk := ⟨[], []⟩

/-- Visit a node and all that is reached from it; the first argument bounds the chain of visits. -/
def visit (next : Nat → List Nat) : Nat → Walk → Nat → Walk
  | 0, w, _ => w
  | n + 1, w, i =>
    if w.seen.contains i then w
    else
      let w := (next i).foldl (visit next n) { w with seen := i :: w.seen }
      { w with left := i :: w.left }

/-- Walk from every one of `size` nodes in turn. -/
def all (next : Nat → List Nat) (size : Nat) : Walk :=
  (List.range size).foldl (visit next size) start

end Walk

/-- The nodes that can be reached from a node, itself included. -/
def reachable (g : StepGraph) (i : Nat) : List Nat :=
  (Walk.visit g.successors g.nodes.length Walk.start i).seen

end LabPlan.StepGraph
