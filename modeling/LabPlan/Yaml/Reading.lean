import LabPlan.Value.Same
import LabPlan.Yaml.Resolution

/-! # Documents as values

A document becomes a value by following its aliases.  Two bounds keep that finite: collections may
nest 128 deep, which also stops an alias inside its own node, and aliases may be followed a hundred
times per event of the document, where a collection counts as two events. -/

namespace LabPlan.Yaml

namespace Node

mutual

/-- How many events spell the node. -/
def events : Node → Nat
  | .scalar _ _ _ => 1
  | .alias _ => 1
  | .sequence _ items => 2 + eventsAll items
  | .mapping _ entries => 2 + eventsEach entries
termination_by structural n => n

def eventsAll : List Node → Nat
  | [] => 0
  | n :: ns => events n + eventsAll ns
termination_by structural ns => ns

def eventsEach : List (Node × Node) → Nat
  | [] => 0
  | e :: es => eventsPair e + eventsEach es
termination_by structural es => es

def eventsPair : Node × Node → Nat
  | (k, v) => events k + events v
termination_by structural e => e

end

end Node

namespace Document

/-- How deep collections may nest. -/
def maxDepth : Nat := 128

/-- How often aliases may be followed. -/
def maxJumps (d : Document) : Nat := 100 * d.root.events

/-- A reader that counts the aliases it has followed. -/
abbrev Expander (α : Type) := StateT Nat Option α

/-- The value under a local tag, if the node has one. -/
def withTag (tag : Tag) (v : Value) : Value :=
  match tag with
  | .named name => .tagged name v
  | _ => v

/-- The node that an alias stands for, counted; any other node is itself. -/
def follow (d : Document) : Node → Expander Node
  | .alias id => do
    let jumps := (← get) + 1
    set jumps
    if d.maxJumps < jumps then (fun _ ↦ none) else fun s ↦ (d.find? id).map (·, s)
  | n => return n

/-- Entries one by one, where no key may come twice. -/
def expandEntries (expand : Node → Expander Value) :
    Entries → List (Node × Node) → Expander Entries
  | done, [] => return done.reverse
  | done, (k, v) :: es => do
    let key ← expand k
    if Entries.hasKey done key then fun _ ↦ none
    let value ← expand v
    expandEntries expand ((key, value) :: done) es

/-- The value of a node that is no alias, with `depth` levels of collections left. -/
def expand (d : Document) : Nat → Node → Expander Value
  | _, .scalar tag isPlain text => fun s ↦
    (Resolution.scalar tag isPlain text).map fun v ↦ (withTag tag v, s)
  | depth + 1, .sequence tag items => do
    let values ← items.mapM fun n ↦ do expand d depth (← d.follow n)
    return withTag tag (.sequence values)
  | depth + 1, .mapping tag entries => do
    let values ← expandEntries (fun n ↦ do expand d depth (← d.follow n)) [] entries
    return withTag tag (.mapping values)
  | _, _ => fun _ ↦ none

/-- The value of a document. -/
def value? (d : Document) : Option Value :=
  ((expand d maxDepth d.root).run 0).map Prod.fst

end Document

/-- Read a text that holds one document. -/
def read? (text : String) : Option Value := do (← Document.ofText text).value?

end LabPlan.Yaml
