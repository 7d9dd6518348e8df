import LabPlan.Value.Basic

/-! # When two values are one key

Mapping keys are compared by what they mean: the two zeros are one number, and mappings are
compared without regard to the order of their entries. -/

namespace LabPlan.Value

mutual

/-- The two values are one key. -/
def same : Value → Value → Bool
  | null, null => true
  | bool a, bool b => a == b
  | int i, int j => i == j
  | float x, float y => x.same y
  | string s, string t => s == t
  | sequence vs, sequence ws => sameAll vs ws
  | mapping es, mapping fs => es.length == fs.length && sameEach es fs
  | tagged s v, tagged t w => s == t && same v w
  | _, _ => false
termination_by structural v => v

/-- Item by item. -/
def sameAll : List Value → List Value → Bool
  | [], [] => true
  | v :: vs, w :: ws => same v w && sameAll vs ws
  | _, _ => false
termination_by structural vs => vs

/-- Every entry on the left has one like it on the right. -/
def sameEach : Entries → Entries → Bool
  | [], _ => true
  | e :: es, fs => fs.any (sameEntry e) && sameEach es fs
termination_by structural es => es

def sameEntry : Value × Value → Value × Value → Bool
  | (k, v), f => same k f.1 && same v f.2
termination_by structural e => e

end

end LabPlan.Value

namespace LabPlan.Entries

/-- Some entry has this key. -/
def hasKey (es : Entries) (key : Value) : Bool := es.any fun e ↦ e.1.same key

end LabPlan.Entries
