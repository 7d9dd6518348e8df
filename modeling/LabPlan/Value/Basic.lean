import LabPlan.Decimal.Binary64

/-! # Document values

A document is a tree of values: scalars, sequences, mappings whose keys are any values, and values
with a tag.  Two ways of looking at a value have to be told apart.  A *view* (`text?`, `items?`,
`entries?`, `isNumber`, …) looks through tags; a pattern on the constructors and `lookup` do not. -/

namespace LabPlan

/-- A document value.  Mappings keep the order of their entries. -/
inductive Value where
  | null
  | bool (b : Bool)
  | int (i : Int)
  | float (x : Binary64)
  | string (s : String)
  | sequence (items : List Value)
  | mapping (entries : List (Value × Value))
  | tagged (tag : String) (content : Value)
deriving Repr, Inhabited

/-- The entries of a mapping, in order. -/
abbrev Entries := List (Value × Value)

namespace Value

/-- The value below all its tags. -/
def untagged : Value → Value
  | tagged _ v => v.untagged
  | v => v

/-- The text of a string. -/
def text? (v : Value) : Option String :=
  match v.untagged with
  | string s => some s
  | _ => none

/-- The items of a sequence. -/
def items? (v : Value) : Option (List Value) :=
  match v.untagged with
  | sequence vs => some vs
  | _ => none

/-- The entries of a mapping. -/
def entries? (v : Value) : Option Entries :=
  match v.untagged with
  | mapping es => some es
  | _ => none

def isNull (v : Value) : Bool := v.untagged matches null
def isBool (v : Value) : Bool := v.untagged matches bool _
def isInteger (v : Value) : Bool := v.untagged matches int _
def isString (v : Value) : Bool := v.untagged matches string _

/-- Integers and floating-point numbers are numbers. -/
def isNumber (v : Value) : Bool :=
  match v.untagged with
  | int _ | float _ => true
  | _ => false

@[simp] theorem text?_string (s : String) : (string s).text? = some s := rfl
@[simp] theorem entries?_mapping (es : Entries) : (mapping es).entries? = some es := rfl

/-- The value is a plain string with this text; a tag makes it another key. -/
def isKey (name : String) : Value → Bool
  | string s => s == name
  | _ => false

theorem isKey_iff {name : String} {v : Value} : v.isKey name = true ↔ v = string name := by
  cases v <;> simp [isKey]

end Value

namespace Entries

/-- The value under a plain string key. -/
def lookup (name : String) : Entries → Option Value
  | [] => none
  | (k, v) :: es => if k.isKey name then some v else lookup name es

@[simp] theorem lookup_nil (name : String) : lookup name [] = none := rfl

theorem lookup_cons (name : String) (k v : Value) (es : Entries) :
    lookup name ((k, v) :: es) = if k.isKey name then some v else lookup name es := rfl

/-- A value that is found stands under its key. -/
theorem mem_of_lookup {name : String} {es : Entries} {v : Value} (h : lookup name es = some v) :
    (Value.string name, v) ∈ es := by
  induction es with
  | nil => simp at h
  | cons e es ih =>
    obtain ⟨k, w⟩ := e
    rw [lookup_cons] at h
    split at h
    · rename_i hk
      obtain rfl := Value.isKey_iff.1 hk
      simp_all
    · exact List.mem_cons_of_mem _ (ih h)

/-- The keys, in order. -/
def keys (es : Entries) : List Value := es.map Prod.fst

theorem sizeOf_lookup_lt {name : String} {es : Entries} {v : Value} (h : lookup name es = some v) :
    sizeOf v < sizeOf es := by
  have := List.sizeOf_lt_of_mem (mem_of_lookup h)
  have : sizeOf v < sizeOf (Value.string name, v) := by
    simp only [Prod.mk.sizeOf_spec]
    omega
  omega

/-- Put a value under a plain string key: in place when the key is there, else at the end. -/
def insert (name : String) (v : Value) : Entries → Entries
  | [] => [(.string name, v)]
  | (k, w) :: es => if k.isKey name then (k, v) :: es else (k, w) :: insert name v es

end Entries

end LabPlan
