/-! # Placed characters

A YAML text is read as a list of characters that each know where they stand.  Every way of ending
a line is one glyph: a carriage return, a line feed, both together or a next-line character become
a line feed, and the two Unicode separators stay as they are. -/

namespace LabPlan.Yaml

/-- Where a character stands: its line, its column in characters, and how many bytes of UTF-8 come
before it. -/
structure Place where
  line : Nat
  column : Nat
  offset : Nat
deriving DecidableEq, Repr, Inhabited

/-- A character with its place. -/
structure Glyph where
  char : Char
  place : Place
deriving DecidableEq, Repr, Inhabited

/-- The characters that a YAML text may hold. -/
def isReadable (c : Char) : Bool :=
  let n := c.toNat
  n == 0x09 || n == 0x0a || n == 0x0d || (0x20 ≤ n && n ≤ 0x7e) || n == 0x85 ||
    (0xa0 ≤ n && n ≤ 0xd7ff) || (0xe000 ≤ n && n ≤ 0xfffd) || 0x10000 ≤ n

def isLineEnd (c : Char) : Bool :=
  c == '\n' || c == '\r' || c == '\u0085' || c == '\u2028' || c == '\u2029'

/-- The place after a character of `width` bytes on the same line. -/
def Place.next (p : Place) (width : Nat) : Place := ⟨p.line, p.column + 1, p.offset + width⟩

/-- The place at the start of the next line, after a line end of `width` bytes. -/
def Place.nextLine (p : Place) (width : Nat) : Place := ⟨p.line + 1, 0, p.offset + width⟩

/-- Give every character its place; `none` if one is not readable. -/
def glyphsFrom : Place → List Char → Option (List Glyph)
  | _, [] => some []
  | p, '\r' :: '\n' :: cs => (glyphsFrom (p.nextLine 2) cs).map (⟨'\n', p⟩ :: ·)
  | p, c :: cs =>
    if !isReadable c then none
    else if c == '\u2028' || c == '\u2029' then
      (glyphsFrom (p.nextLine c.utf8Size) cs).map (⟨c, p⟩ :: ·)
    else if isLineEnd c then (glyphsFrom (p.nextLine c.utf8Size) cs).map (⟨'\n', p⟩ :: ·)
    else (glyphsFrom (p.next c.utf8Size) cs).map (⟨c, p⟩ :: ·)

/-- The glyphs of a whole text. -/
def glyphs (text : String) : Option (List Glyph) := glyphsFrom ⟨0, 0, 0⟩ text.toList

namespace Glyph

/-- A space or a tab. -/
def isBlank (g : Glyph) : Bool := g.char == ' ' || g.char == '\t'

def isBreak (g : Glyph) : Bool := isLineEnd g.char

/-- A byte-order mark at the start of a line, which is left out but takes its place. -/
def isByteOrderMark (g : Glyph) : Bool := g.char == '\ufeff' && g.place.column == 0

/-- A blank, a line end, or the end of the text. -/
def endsWord : List Glyph → Bool
  | [] => true
  | g :: _ => g.isBlank || g.isBreak

/-- The text begins with this character. -/
def startsWith (c : Char) : List Glyph → Bool
  | [] => false
  | g :: _ => g.char == c

/-- The text begins with one of these characters. -/
def startsWithAny (cs : List Char) : List Glyph → Bool
  | [] => false
  | g :: _ => cs.contains g.char

/-- Three of the same mark at the start of a line, with nothing attached. -/
def isMarker (c : Char) : List Glyph → Bool
  | a :: b :: d :: rest =>
    a.place.column == 0 && a.char == c && b.char == c && d.char == c && endsWord rest
  | _ => false

/-- A document begins or ends here. -/
def isDocumentMarker (gs : List Glyph) : Bool := isMarker '-' gs || isMarker '.' gs

def skipBlanks (gs : List Glyph) : List Glyph := gs.dropWhile isBlank

/-- Leave out a comment, up to the end of its line. -/
def skipComment (gs : List Glyph) : List Glyph :=
  if startsWith '#' gs then gs.dropWhile (!·.isBreak) else gs

/-- Letters, digits, the hyphen and the underscore. -/
def isWordChar (c : Char) : Bool := c.isAlphanum || c == '-' || c == '_'

def isWord (g : Glyph) : Bool := isWordChar g.char

/-- The value of a digit in base sixteen. -/
def hexValue? (g : Glyph) : Option Nat :=
  let n := g.char.toNat
  if 0x30 ≤ n && n ≤ 0x39 then some (n - 0x30)
  else if 0x41 ≤ n && n ≤ 0x46 then some (n - 0x37)
  else if 0x61 ≤ n && n ≤ 0x66 then some (n - 0x57)
  else none

end Glyph

end LabPlan.Yaml
