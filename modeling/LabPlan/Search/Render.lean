import LabPlan.Search.Grammar

/-! # Searches as text

The canonical text of a search, with every value in double quotes, and the searches that have one:
fields have names that can be written, and literal text is never cut in two. -/

namespace LabPlan.Search

/-- A token between double quotes: its query text, and a backslash before each quote in it. -/
def Token.quotedText (t : Token) : List Char :=
  t.queryText.toList.flatMap fun c ↦ if c = '"' then ['\\', '"'] else [c]

/-- The canonical text of a term. -/
def Term.text (t : Term) : List Char :=
  let field := match t.field with
    | some name => name.toList ++ [':']
    | none => []
  field ++ '"' :: t.value.flatMap Token.quotedText ++ ['"']

/-- The canonical text of a search. -/
def textOf (ts : List Term) : String :=
  String.ofList ([','].intercalate (ts.map Term.text))

/-- The field has a name that can be written, and the value is joined. -/
structure Term.IsNormal (t : Term) : Prop where
  field : ∀ name, t.field = some name → name ≠ "" ∧ ∀ c ∈ name.toList, IsFieldChar c
  value : Token.AreJoined t.value

end LabPlan.Search
