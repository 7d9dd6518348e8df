import LabPlan.Search.Token

/-! # Patterns of a column

In the pattern of a column a percent sign stands for any run of characters and an underscore for
exactly one; the escape character makes the character after it stand for itself.  Matching goes
through the pattern piece by piece and keeps, for every beginning of the text, whether the pieces
so far match it. -/

namespace LabPlan.Search

namespace Like

/-- The pieces of a written pattern.  The escape character goes before the wildcards, and at the
end it stands for itself. -/
def pieces (escape : Char) : List Char → List Piece
  | [] => []
  | c :: cs =>
    if c = escape then
      match cs with
      | [] => [.char escape]
      | d :: ds => .char d :: pieces escape ds
    else if c = '%' then .anyChars :: pieces escape cs
    else if c = '_' then .oneChar :: pieces escape cs
    else .char c :: pieces escape cs

/-- Which beginnings of the text match up to a wildcard for any run, given which match before it:
all from the first one on. -/
def fill : Bool → List Bool → List Bool
  | _, [] => []
  | reached, m :: ms => (reached || m) :: fill (reached || m) ms

/-- Which beginnings of the text match after one more piece.  There is one more beginning than
there are characters. -/
def step (text : List Char) (matched : List Bool) : Piece → List Bool
  | .anyChars => fill false matched
  | .oneChar => false :: matched.take text.length
  | .char c => false :: List.zipWith (fun m d ↦ m && d == c) matched text

/-- Before any piece only the empty beginning matches. -/
def initial (text : List Char) : List Bool := true :: text.map fun _ ↦ false

/-- The pieces match the whole text. -/
def matchesPieces (ps : List Piece) (text : List Char) : Bool :=
  (ps.foldl (step text) (initial text)).getLastD false

/-- The pattern matches the whole value. -/
def isMatch (pattern : String) (escape : Char) (value : String) : Bool :=
  matchesPieces (pieces escape pattern.toList) value.toList

end Like

/-- How a written pattern is read, from left to right. -/
inductive Like.Reads (escape : Char) : List Char → List Piece → Prop where
  | nil : Reads escape [] []
  | escaped {c : Char} {cs : List Char} {ps : List Piece} (h : Reads escape cs ps) :
    Reads escape (escape :: c :: cs) (.char c :: ps)
  | trailing : Reads escape [escape] [.char escape]
  | anyChars {cs : List Char} {ps : List Piece} (he : escape ≠ '%') (h : Reads escape cs ps) :
    Reads escape ('%' :: cs) (.anyChars :: ps)
  | oneChar {cs : List Char} {ps : List Piece} (he : escape ≠ '_') (h : Reads escape cs ps) :
    Reads escape ('_' :: cs) (.oneChar :: ps)
  | char {c : Char} {cs : List Char} {ps : List Piece} (he : c ≠ escape) (ha : c ≠ '%')
    (ho : c ≠ '_') (h : Reads escape cs ps) : Reads escape (c :: cs) (.char c :: ps)

/-- A text is cut into consecutive parts, one for each piece in order: a character for itself, any
run for the one wildcard, any single character for the other. -/
inductive Matches : List Piece → List Char → Prop where
  | nil : Matches [] []
  | char {c : Char} {ps : List Piece} {cs : List Char} (h : Matches ps cs) :
    Matches (.char c :: ps) (c :: cs)
  | oneChar {c : Char} {ps : List Piece} {cs : List Char} (h : Matches ps cs) :
    Matches (.oneChar :: ps) (c :: cs)
  | anyChars {run : List Char} {ps : List Piece} {cs : List Char} (h : Matches ps cs) :
    Matches (.anyChars :: ps) (run ++ cs)

end LabPlan.Search
