import LabPlan.Text.Shown

/-! # Quoted text

How a text is shown inside a message: between double quotes, with a backslash before a quote or a
backslash, short names for the usual controls, and the code point in braces for any other
character that would not be seen. -/

namespace LabPlan.Text

/-- Digits of a number in base sixteen, lower case, without leading zeros. -/
def hexDigits (n : Nat) : List Char :=
  Nat.toDigits 16 n

/-- How one character is shown between quotes. -/
def escape (c : Char) : List Char :=
  match c with
  | '\x00' => ['\\', '0']
  | '\t' => ['\\', 't']
  | '\r' => ['\\', 'r']
  | '\n' => ['\\', 'n']
  | '\\' => ['\\', '\\']
  | '"' => ['\\', '"']
  | c => if isShown c then [c] else ['\\', 'u', '\x7b'] ++ hexDigits c.toNat ++ ['\x7d']

/-- The text between double quotes, every hidden character spelled out. -/
def quote (s : String) : String :=
  String.ofList ('"' :: s.toList.flatMap escape ++ ['"'])

/-- A list of texts, each quoted, between brackets. -/
def quoteAll (ss : List String) : String :=
  "[" ++ String.intercalate ", " (ss.map quote) ++ "]"

end LabPlan.Text
