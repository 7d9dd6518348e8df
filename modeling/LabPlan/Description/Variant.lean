import LabPlan.Description.Shape

/-! # Documents that say the same

Two ways in which documents may differ without holding different descriptions: the entries of a
section may come in another order, and a short form may stand for a long one. -/

namespace LabPlan

namespace Value

/-- Two mappings that differ in the value of one entry only: its key is one of `P`, and its two
values are related by `R`. -/
inductive AtKey (P : Value → Prop) (R : Value → Value → Prop) : Value → Value → Prop where
  | mk {k v w : Value} (before after : Entries) (hk : P k) (h : R v w) :
    AtKey P R (mapping (before ++ (k, v) :: after)) (mapping (before ++ (k, w) :: after))

/-- At the plain key of a name. -/
abbrev AtName (name : String) : (Value → Value → Prop) → Value → Value → Prop :=
  AtKey (· = string name)

/-- At any key. -/
abbrev AtAny : (Value → Value → Prop) → Value → Value → Prop := AtKey fun _ ↦ True

/-- Two mappings with the same entries in another order, below the same tags if there are any. -/
inductive Permuted : Value → Value → Prop where
  | mk {es fs : Entries} (h : es.Perm fs) : Permuted (mapping es) (mapping fs)
  | tagged {t : String} {v w : Value} (h : Permuted v w) : Permuted (tagged t v) (tagged t w)

/-- The entries of the document or of its sections come in another order. -/
inductive Reordered : Value → Value → Prop where
  | refl (v : Value) : Reordered v v
  | root {u v w : Value} (h : Reordered u v) (hp : Permuted v w) : Reordered u w
  | inner {u v w : Value} {name : String} (h : Reordered u v) (hn : name ∈ Shape.sections)
    (hp : AtName name Permuted v w) : Reordered u w

end Value

/-! ## Short forms -/

namespace Shape

/-- Distinct names of parameters stand for a mapping that gives each of them nothing. -/
inductive BareNames : Value → Value → Prop where
  | mk {names : List String} (h : names.Nodup) :
    BareNames (.sequence (names.map .string)) (.mapping (names.map fun n ↦ (.string n, .null)))

/-- A name stands for a list of one name. -/
inductive SingleName : Value → Value → Prop where
  | mk (s : String) : SingleName (.string s) (.sequence [.string s])

/-- The key under which the arguments of an invocation stand in expanded form. -/
def argumentsKey : Value → String
  | .mapping _ => "kwargs"
  | _ => "args"

/-- A step in short form stands for one in expanded form: its only entry besides dependencies names
a declared task.  The task and its arguments come before the dependencies, after them or between
them. -/
inductive ShortStep (declared : List String) : Value → Value → Prop where
  | mk {t : String} {v : Value} {spec spec' : Entries} (ht : t ∈ declared) (hd : t ≠ "dependencies")
    (hv : t = "task" → ∀ s, v = .string s → s ∉ declared)
    (hshort : (spec.filter fun e ↦ !readsAs ["dependencies"] e.1) = [(.string t, v)])
    (hlong : (spec'.filter fun e ↦ !readsAs ["dependencies"] e.1).Perm
      [(.string "task", .string t), (.string (argumentsKey v), v)])
    (hrest : (spec'.filter fun e ↦ readsAs ["dependencies"] e.1) =
      spec.filter fun e ↦ readsAs ["dependencies"] e.1) :
    ShortStep declared (.mapping spec) (.mapping spec')

/-- One short form in the document is written out. -/
inductive WritesOut : Value → Value → Prop where
  | parameters {v w : Value} (h : Value.AtName "parameters" BareNames v w) : WritesOut v w
  | outputs {v w : Value}
    (h : Value.AtName "tasks" (Value.AtAny (Value.AtName "outputs" SingleName)) v w) : WritesOut v w
  | dependencies {v w : Value}
    (h : Value.AtName "graph" (Value.AtAny (Value.AtName "dependencies" SingleName)) v w) :
    WritesOut v w
  | step {root : Entries} {w : Value}
    (h : Value.AtName "graph" (Value.AtAny (ShortStep (declaredTasks root))) (.mapping root) w) :
    WritesOut (.mapping root) w

end Shape

end LabPlan
