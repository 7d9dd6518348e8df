import LabPlan.Description.Basic

/-! # The graph of steps

An edge leads from a step to one that waits for it, because that one lists it as a dependency or
refers to it in an argument.  Nodes are numbered in the order of the steps.  There is at most one
edge from a node to another; a dependency decides its kind. -/

namespace LabPlan

/-- Why a step waits for another. -/
inductive EdgeKind where
  | dependency
  | reference
deriving DecidableEq, Repr

/-- An edge between nodes. -/
structure Edge where
  source : Nat
  target : Nat
  kind : EdgeKind
deriving DecidableEq, Repr

/-- The names of the steps by node, and the edges, oldest first. -/
structure StepGraph where
  nodes : List String
  edges : List Edge
deriving DecidableEq, Repr

namespace StepGraph

/-- The edge joins these nodes. -/
def joins (source target : Nat) (e : Edge) : Bool := e.source == source && e.target == target

/-- The last node of a name. -/
def indexIn? (nodes : List String) (name : String) : Option Nat :=
  match nodes with
  | [] => none
  | n :: ns =>
    match indexIn? ns name with
    | some i => some (i + 1)
    | none => if n == name then some 0 else none

/-- The node that stands for a name. -/
def index? (g : StepGraph) (name : String) : Option Nat := indexIn? g.nodes name

/-- The name of a node. -/
def nameOf (g : StepGraph) (i : Nat) : String := g.nodes.getD i ""

/-- Join two nodes by a dependency: an edge that is there becomes one, in its place. -/
def addDependency (source target : Nat) (es : List Edge) : List Edge :=
  if es.any (joins source target) then
    es.map fun e ↦ if joins source target e then { e with kind := .dependency } else e
  else es ++ [⟨source, target, .dependency⟩]

/-- Join two nodes by a reference, unless they are joined already. -/
def addReference (source target : Nat) (es : List Edge) : List Edge :=
  if es.any (joins source target) then es else es ++ [⟨source, target, .reference⟩]

/-- The edges after those of one more step, which is the node `target`.  Names that are no steps
make no edges. -/
def addStep (nodes : List String) (es : List Edge) (s : Step) : List Edge :=
  match indexIn? nodes s.name with
  | none => es
  | some target =>
    let es := (s.dependencies.filterMap (indexIn? nodes)).foldl
      (fun es source ↦ addDependency source target es) es
    ((s.references.map Reference.name).filterMap (indexIn? nodes)).foldl
      (fun es source ↦ addReference source target es) es

/-- The graph of a description's steps. -/
def ofDescription (d : Description) : StepGraph :=
  let nodes := d.steps.map Step.name
  ⟨nodes, d.steps.foldl (addStep nodes) []⟩

/-- The nodes that wait for a node, the newest edge first. -/
def successors (g : StepGraph) (i : Nat) : List Nat :=
  (g.edges.reverse.filter (·.source == i)).map Edge.target

/-- The nodes that a node waits for, the newest edge first. -/
def predecessors (g : StepGraph) (i : Nat) : List Nat :=
  (g.edges.reverse.filter (·.target == i)).map Edge.source

/-- Names in increasing order. -/
def sorted (names : List String) : List String := names.mergeSort fun a b ↦ a ≤ b

/-- The steps that must run before a step, by name. -/
def predecessorsOf (g : StepGraph) (step : String) : List String :=
  match g.index? step with
  | some i => sorted ((g.predecessors i).map g.nameOf)
  | none => []

/-- The steps that wait for a step, by name. -/
def successorsOf (g : StepGraph) (step : String) : List String :=
  match g.index? step with
  | some i => sorted ((g.successors i).map g.nameOf)
  | none => []

/-- Why one step waits for another, if it does. -/
def edgeKind? (g : StepGraph) (source target : String) : Option EdgeKind := do
  let i ← g.index? source
  let j ← g.index? target
  (g.edges.find? (joins i j)).map Edge.kind

/-- Every name with its node, in increasing order of names. -/
def indices (g : StepGraph) : List (String × Nat) :=
  (sorted g.nodes).eraseDups.filterMap fun n ↦ (g.index? n).map (n, ·)

end StepGraph

end LabPlan
