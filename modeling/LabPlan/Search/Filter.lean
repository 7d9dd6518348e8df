import LabPlan.Search.Like
import LabPlan.Search.Query
import LabPlan.Text.Quoted

/-! # Filters

A search becomes a filter on rows: patterns of columns, combined by conjunction and disjunction.
Every term must match.  Bare text may match anywhere in any searchable field; the value of a named
field must match that field as a whole. -/

namespace LabPlan.Search

/-- A condition on a row. -/
inductive Filter where
  | like (column pattern : String) (escape : Char)
  | and (filters : List Filter)
  | or (filters : List Filter)
deriving Repr, Inhabited

/-- A row: what stands in a column, if it is there. -/
abbrev Row := String → Option String

namespace Filter

mutual

/-- The row meets the condition; a missing column never matches. -/
def holds (row : Row) : Filter → Bool
  | like column pattern escape =>
    match row column with
    | some value => Like.isMatch pattern escape value
    | none => false
  | and fs => holdsAll row fs
  | or fs => holdsAny row fs
termination_by structural f => f

def holdsAll (row : Row) : List Filter → Bool
  | [] => true
  | f :: fs => holds row f && holdsAll row fs
termination_by structural fs => fs

def holdsAny (row : Row) : List Filter → Bool
  | [] => false
  | f :: fs => holds row f || holdsAny row fs
termination_by structural fs => fs

end

theorem holdsAll_eq (row : Row) (fs : List Filter) : holdsAll row fs = fs.all (holds row) := by
  induction fs with
  | nil => rfl
  | cons f fs ih => rw [holdsAll, ih, List.all_cons]

theorem holdsAny_eq (row : Row) (fs : List Filter) : holdsAny row fs = fs.any (holds row) := by
  induction fs with
  | nil => rfl
  | cons f fs ih => rw [holdsAny, ih, List.any_cons]

end Filter

/-! ## Patterns from search values -/

/-- The escape character of the patterns that are made here. -/
def likeEscape : Char := '/'

/-- How a character is written in a pattern so that it stands for itself. -/
def likeChar (c : Char) : List Char :=
  if c == likeEscape || c == '%' || c == '_' then [likeEscape, c] else [c]

/-- A token in a pattern. -/
def Token.likeText : Token → List Char
  | literal s => s.toList.flatMap likeChar
  | anyChars => ['%']
  | oneChar => ['_']

/-- The pattern of a search value; with `anywhere` it matches any text that holds the value. -/
def likePattern (value : List Token) (anywhere : Bool) : String :=
  let any := if anywhere then ['%'] else []
  String.ofList (any ++ value.flatMap Token.likeText ++ any)

/-! ## Searchable fields -/

/-- The fields that a search may name, each with the filter that a pattern makes of it. -/
structure Fields where
  fields : List (String × (String → Filter))

namespace Fields

/-- No fields. -/
def empty : Fields := ⟨[]⟩

/-- One more field. -/
def add (fs : Fields) (name : String) (filter : String → Filter) : Fields :=
  ⟨fs.fields ++ [(name, filter)]⟩

/-- One more field that stands for a column. -/
def addColumn (fs : Fields) (name column : String) : Fields :=
  fs.add name fun pattern ↦ .like column pattern likeEscape

def names (fs : Fields) : List String := fs.fields.map Prod.fst

/-- The first field of a name. -/
def find? (fs : Fields) (name : String) : Option (String → Filter) :=
  (fs.fields.find? (·.1 == name)).map Prod.snd

/-- The names of the fields in a message. -/
def display (fs : Fields) : String := Text.quoteAll fs.names

/-- The filter of one term; a field that is not searchable is an error, by its name. -/
def termFilter (fs : Fields) (t : Term) : Except String Filter :=
  match t.field with
  | none => .ok (.or (fs.fields.map fun f ↦ f.2 (likePattern t.value true)))
  | some name =>
    match fs.find? name with
    | some filter => .ok (filter (likePattern t.value false))
    | none => .error name

/-- The filters of terms, one after the other. -/
def termFilters (fs : Fields) : List Term → Except String (List Filter)
  | [] => .ok []
  | t :: ts =>
    match fs.termFilter t with
    | .error name => .error name
    | .ok f => (fs.termFilters ts).map (f :: ·)

/-- The filter of a search text. -/
def filterOf (fs : Fields) (text : String) : Except Error Filter :=
  match read text with
  | .error e => .error e
  | .ok ts =>
    match fs.termFilters ts with
    | .error name => .error ⟨text, .unknownField name⟩
    | .ok filters => .ok (.and filters)

end Fields

end LabPlan.Search
