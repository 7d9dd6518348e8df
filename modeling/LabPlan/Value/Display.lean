import LabPlan.Value.Basic
import LabPlan.Text.Quoted
import LabPlan.Decimal.Shortest

/-! # Values in messages

The text of a value inside a message names what kind of value it is.  Inside a mapping a key that
is a truth value, a number or a string is written bare. -/

namespace LabPlan.Value

mutual

/-- The text of a value in a message. -/
def display : Value → String
  | null => "Null"
  | bool b => "Bool(" ++ toString b ++ ")"
  | int i => "Number(" ++ toString i ++ ")"
  | float x => "Number(" ++ Decimal.text x ++ ")"
  | string s => "String(" ++ Text.quote s ++ ")"
  | sequence vs => "Sequence [" ++ String.intercalate ", " (displayAll vs) ++ "]"
  | mapping es => "Mapping \x7b" ++ String.intercalate ", " (displayEntries es) ++ "\x7d"
  | tagged t v => "TaggedValue \x7b tag: !" ++ t ++ ", value: " ++ display v ++ " \x7d"
termination_by structural v => v

def displayAll : List Value → List String
  | [] => []
  | v :: vs => display v :: displayAll vs
termination_by structural vs => vs

def displayEntries : Entries → List String
  | [] => []
  | e :: es => displayEntry e :: displayEntries es
termination_by structural es => es

def displayEntry : Value × Value → String
  | (k, v) =>
    let key := match k with
      | bool b => toString b
      | int i => toString i
      | float x => Decimal.text x
      | string s => Text.quote s
      | k => display k
    key ++ ": " ++ display v
termination_by structural e => e

end

/-- How a message names a mapping key: the text of a string between single quotes, any other key
as a value. -/
def keyName (k : Value) : String :=
  match k.text? with
  | some s => "'" ++ s ++ "'"
  | none => k.display

end LabPlan.Value
