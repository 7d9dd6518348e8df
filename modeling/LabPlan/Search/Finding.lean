import LabPlan.Search.Filter

/-! # What a search finds

When a row is found by a term, said without patterns of columns: a field must hold a value that
matches as a whole, and bare text must match a part of some searchable column. -/

namespace LabPlan.Search

/-- Searchable columns, each under the name of a field. -/
abbrev Columns := List (String × String)

/-- The fields that stand for columns. -/
def Fields.ofColumns (cols : Columns) : Fields :=
  cols.foldl (fun fs c ↦ fs.addColumn c.1 c.2) Fields.empty

namespace Token

/-- A literal stands for its own characters, one wildcard for any run, the other for one
character. -/
def StandsFor : Token → List Char → Prop
  | literal s, part => part = s.toList
  | anyChars, _ => True
  | oneChar, part => part.length = 1

/-- The text is cut into consecutive parts, one for each token in order. -/
inductive Spell : List Token → List Char → Prop where
  | nil : Spell [] []
  | cons {t : Token} {ts : List Token} {part rest : List Char} (h : t.StandsFor part)
    (hs : Spell ts rest) : Spell (t :: ts) (part ++ rest)

end Token

/-- The text matches a value as a whole. -/
def Term.Fits (t : Term) (text : List Char) : Prop := Token.Spell t.value text

/-- The term names a field that stands for no column. -/
def Term.IsStray (cols : Columns) (t : Term) : Prop :=
  ∃ name, t.field = some name ∧ name ∉ cols.map Prod.fst

/-- The term finds the row. -/
def Term.Finds (cols : Columns) (row : Row) (t : Term) : Prop :=
  match t.field with
  | some name =>
    ∃ column, cols.lookup name = some column ∧
      ∃ value, row column = some value ∧ t.Fits value.toList
  | none =>
    ∃ c ∈ cols, ∃ value, row c.2 = some value ∧ ∃ part, part <:+: value.toList ∧ t.Fits part

end LabPlan.Search
