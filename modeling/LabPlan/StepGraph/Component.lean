import LabPlan.StepGraph.Walk

/-! # Components

Steps that wait for one another form a component.  Components are listed in the order in which a
walk along the edges, newest edge first, leaves the last node of each. -/

namespace LabPlan.StepGraph

/-- The nodes that a node waits for, at however many steps, itself included. -/
def reaching (g : StepGraph) (i : Nat) : List Nat :=
  (Walk.visit g.predecessors g.nodes.length Walk.start i).seen

/-- The nodes that can be reached from a node and from which it can be reached. -/
def component (g : StepGraph) (i : Nat) : List Nat :=
  let ahead := g.reachable i
  let behind := g.reaching i
  (List.range g.nodes.length).filter fun j ↦ ahead.contains j && behind.contains j

/-- The components of the nodes of a list, by the first node of each, the last one first. -/
def group (g : StepGraph) : List Nat → List (List Nat) → List (List Nat)
  | [], found => found
  | i :: is, found =>
    if found.any (·.contains i) then g.group is found else g.group is (g.component i :: found)

/-- The components of the graph. -/
def components (g : StepGraph) : List (List Nat) :=
  g.group (Walk.all g.successors g.nodes.length).left []

/-- The names of a component in increasing order. -/
def componentNames (g : StepGraph) (c : List Nat) : List String := sorted (c.map g.nameOf)

end LabPlan.StepGraph
