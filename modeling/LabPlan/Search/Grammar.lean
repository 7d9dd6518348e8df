import LabPlan.Search.Token
import LabPlan.Text.Blank

/-! # The grammar of search texts

The texts that are searches, derived from rules together with what they mean.  A rule relates a
text to the pieces, or the terms, that it stands for.  The rules name characters only, and nothing
of how a text is read. -/

namespace LabPlan.Search

/-! ## Characters -/

/-- A space, a tab, a carriage return or a line feed. -/
def IsSpace (c : Char) : Prop := c ∈ [' ', '\t', '\r', '\n']

instance : DecidablePred IsSpace := fun _ ↦ inferInstanceAs (Decidable (_ ∈ _))

/-- A letter of the alphabet, capital or small, or an underscore. -/
def IsFieldChar (c : Char) : Prop := ('A' ≤ c ∧ c ≤ 'Z') ∨ ('a' ≤ c ∧ c ≤ 'z') ∨ c = '_'

instance : DecidablePred IsFieldChar := fun _ ↦ inferInstanceAs (Decidable (_ ∨ _))

/-- A character that is neither blank nor has a meaning of its own. -/
def IsPlain (c : Char) : Prop :=
  Text.isBlank c = false ∧ c ∉ [',', ':', '\x27', '"', '\\', '*', '?']

/-- The wildcards, with what they stand for. -/
inductive Wildcard : Char → Piece → Prop where
  | anyChars : Wildcard '*' .anyChars
  | oneChar : Wildcard '?' .oneChar

/-- `Escape c d`: a backslash and `c` stand for `d`, which is a line feed for `n` and otherwise `c`
itself. -/
inductive Escape : Char → Char → Prop where
  | lineFeed : Escape 'n' '\n'
  | self {c : Char} (hc : c ≠ 'n') : Escape c c

/-! ## Words -/

/-- Text between words. -/
def AreSpaces (cs : List Char) : Prop := ∀ c ∈ cs, IsSpace c

/-- Plain characters and escapes. -/
inductive Unquoted : List Char → List Piece → Prop where
  | nil : Unquoted [] []
  | plain {c : Char} {cs : List Char} {ps : List Piece} (hc : IsPlain c) (h : Unquoted cs ps) :
    Unquoted (c :: cs) (.char c :: ps)
  | escape {c d : Char} {cs : List Char} {ps : List Piece} (he : Escape c d)
    (h : Unquoted cs ps) : Unquoted ('\\' :: c :: cs) (.char d :: ps)

/-- What may stand between two of these quotes. -/
inductive Quoted (quote : Char) : List Char → List Piece → Prop where
  | nil : Quoted quote [] []
  | plain {c : Char} {cs : List Char} {ps : List Piece} (hc : c ∉ [quote, '\\', '*', '?'])
    (h : Quoted quote cs ps) : Quoted quote (c :: cs) (.char c :: ps)
  | wildcard {c : Char} {p : Piece} {cs : List Char} {ps : List Piece} (hw : Wildcard c p)
    (h : Quoted quote cs ps) : Quoted quote (c :: cs) (p :: ps)
  | escape {c d : Char} {cs : List Char} {ps : List Piece} (he : Escape c d)
    (h : Quoted quote cs ps) : Quoted quote ('\\' :: c :: cs) (.char d :: ps)

inductive Segment : List Char → List Piece → Prop where
  | quoted {q : Char} {cs : List Char} {ps : List Piece} (hq : q = '"' ∨ q = '\x27')
    (h : Quoted q cs ps) : Segment (q :: cs ++ [q]) ps
  | wildcard {c : Char} {p : Piece} (hw : Wildcard c p) : Segment [c] [p]
  | unquoted {cs : List Char} {ps : List Piece} (hne : cs ≠ []) (h : Unquoted cs ps) :
    Segment cs ps

/-- Segments with nothing between them. -/
inductive Word : List Char → List Piece → Prop where
  | one {cs : List Char} {ps : List Piece} (h : Segment cs ps) : Word cs ps
  | more {cs ds : List Char} {ps qs : List Piece} (h : Segment cs ps) (hw : Word ds qs) :
    Word (cs ++ ds) (ps ++ qs)

/-- Words with space between them, which is part of what they mean. -/
inductive Bare : List Char → List Piece → Prop where
  | one {cs : List Char} {ps : List Piece} (h : Word cs ps) : Bare cs ps
  | more {cs sp ds : List Char} {ps qs : List Piece} (h : Word cs ps) (hne : sp ≠ [])
    (hs : AreSpaces sp) (hb : Bare ds qs) :
    Bare (cs ++ sp ++ ds) (ps ++ sp.map Piece.char ++ qs)

/-! ## Terms -/

namespace Token

/-- No literal is empty, and no two stand side by side. -/
inductive AreJoined : List Token → Prop where
  | nil : AreJoined []
  | wildcard {t : Token} {ts : List Token} (ht : ∀ s, t ≠ literal s) (h : AreJoined ts) :
    AreJoined (t :: ts)
  | literal {s : String} {ts : List Token} (hs : s ≠ "")
    (hn : ∀ s', ts.head? ≠ some (literal s')) (h : AreJoined ts) : AreJoined (literal s :: ts)

/-- The tokens are made of these pieces in order, and literal text is joined in them. -/
structure Joins (ts : List Token) (ps : List Piece) : Prop where
  pieces : ts.flatMap Token.pieces = ps
  joined : AreJoined ts

end Token

/-- A field with a word, or bare text. -/
inductive TermText : List Char → Term → Prop where
  | field {name sp cs : List Char} {ps : List Piece} {ts : List Token} (hne : name ≠ [])
    (hn : ∀ c ∈ name, IsFieldChar c) (hs : AreSpaces sp) (h : Word cs ps)
    (hj : Token.Joins ts ps) : TermText (name ++ ':' :: sp ++ cs) ⟨some (String.ofList name), ts⟩
  | bare {cs : List Char} {ps : List Piece} {ts : List Token} (h : Bare cs ps)
    (hj : Token.Joins ts ps) : TermText cs ⟨none, ts⟩

/-- Terms between commas. -/
inductive TermsText : List Char → List Term → Prop where
  | one {cs : List Char} {t : Term} (h : TermText cs t) : TermsText cs [t]
  | more {cs sp sp' ds : List Char} {t : Term} {ts : List Term} (h : TermText cs t)
    (hs : AreSpaces sp) (hs' : AreSpaces sp') (hts : TermsText ds ts) :
    TermsText (cs ++ sp ++ ',' :: sp' ++ ds) (t :: ts)

/-- Terms with space around them. -/
inductive QueryText : List Char → List Term → Prop where
  | mk {sp cs sp' : List Char} {ts : List Term} (hs : AreSpaces sp) (h : TermsText cs ts)
    (hs' : AreSpaces sp') : QueryText (sp ++ cs ++ sp') ts

end LabPlan.Search
