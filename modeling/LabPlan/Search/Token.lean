/-! # Search values

The value of a search term is a pattern: characters that stand for themselves, and two wildcards.
Seen one by one the parts of a pattern are *pieces*; runs of plain characters make *tokens*. -/

namespace LabPlan.Search

/-- One part of a pattern. -/
inductive Piece where
  | char (c : Char)
  /-- Any run of characters, also an empty one. -/
  | anyChars
  /-- Exactly one character. -/
  | oneChar
deriving DecidableEq, Repr

/-- A part of a search value: literal text or a wildcard. -/
inductive Token where
  | literal (text : String)
  | anyChars
  | oneChar
deriving DecidableEq, Repr

namespace Token

/-- The pieces of a token. -/
def pieces : Token → List Piece
  | literal s => s.toList.map .char
  | anyChars => [.anyChars]
  | oneChar => [.oneChar]

/-- Put a plain character in front of tokens, into the first one if that is literal. -/
def addChar (c : Char) : List Token → List Token
  | literal s :: ts => literal (String.ofList (c :: s.toList)) :: ts
  | ts => literal (String.ofList [c]) :: ts

/-- The tokens of a pattern: runs of plain characters as long as possible. -/
def ofPieces : List Piece → List Token
  | [] => []
  | .char c :: ps => addChar c (ofPieces ps)
  | .anyChars :: ps => anyChars :: ofPieces ps
  | .oneChar :: ps => oneChar :: ofPieces ps

/-- The characters that a query text must escape in a literal. -/
def isSpecial (c : Char) : Bool := c == '*' || c == '?' || c == '\\'

/-- A token as it is written in a query: wildcards as they are, and a backslash before a character
that would not stand for itself. -/
def queryText : Token → String
  | anyChars => "*"
  | oneChar => "?"
  | literal s => String.ofList (s.toList.flatMap fun c ↦ if isSpecial c then ['\\', c] else [c])

end Token

/-- A term of a search: a value, sought in one field or in all of them. -/
structure Term where
  field : Option String
  value : List Token
deriving DecidableEq, Repr

end LabPlan.Search
