import LabPlan.Yaml.Glyph

/-! # Scalar texts

The four written forms of a scalar: plain, in single quotes, in double quotes, and as a block.
Each reader goes once over the glyphs and returns the text with the glyphs that follow it.  Line
ends inside a flow scalar are folded: one becomes a space, and of several the first is dropped. -/

namespace LabPlan.Yaml

/-- What has been read since the last visible character of a flow scalar. -/
inductive Gap where
  | none
  /-- Blanks on one line, last first. -/
  | blanks (chars : List Char)
  /-- The first line end, if it counts, and those after it, last first. -/
  | lines (first : Option Char) (more : List Char)
deriving Repr

namespace Gap

def addBlank (c : Char) : Gap → Gap
  | none => blanks [c]
  | blanks cs => blanks (c :: cs)
  | lines f m => lines f m

def addBreak (c : Char) : Gap → Gap
  | none | blanks _ => lines (some c) []
  | lines f m => lines f (c :: m)

/-- A line has ended in the gap. -/
def hasBreak : Gap → Bool
  | lines _ _ => true
  | _ => false

/-- Put the folded gap in front of a text kept last character first. -/
def joinTo (acc : List Char) : Gap → List Char
  | none => acc
  | blanks cs => cs ++ acc
  | lines (some '\n') [] => ' ' :: acc
  | lines (some '\n') m => m ++ acc
  | lines (some c) m => m ++ c :: acc
  | lines Option.none m => m ++ acc

end Gap

/-- A scalar text with the glyphs after it. -/
structure Scanned where
  text : List Char
  rest : List Glyph

namespace Plain

/-- A colon that ends a plain scalar: nothing is attached to it. -/
def isEnd (flow : Bool) (g : Glyph) (rest : List Glyph) : Bool :=
  (g.char == ':' && Glyph.endsWord rest) ||
    (flow && [',', '[', ']', '\x7b', '\x7d'].contains g.char)

/-- A colon that may not stand inside a plain scalar of a flow collection. -/
def isMisplaced (flow : Bool) (g : Glyph) (rest : List Glyph) : Bool :=
  flow && g.char == ':' && Glyph.startsWithAny [',', '?', '[', ']', '\x7b', '\x7d'] rest

/-- A new word may not begin here: it stands too far left, or a marker or a comment begins. -/
def isOutside (flow : Bool) (indent : Nat) (g : Glyph) (rest : List Glyph) : Bool :=
  (!flow && g.place.column < indent) || Glyph.isDocumentMarker (g :: rest) || g.char == '#'

/-- Read on in a plain scalar whose continuation lines stand at least at column `indent`.  The
second result tells whether the scalar was left on a new line. -/
def read (flow : Bool) (indent : Nat) (acc : List Char) (gap : Gap) :
    List Glyph → Option (Scanned × Bool)
  | [] => some (⟨acc.reverse, []⟩, gap.hasBreak)
  | g :: rest =>
    if g.isBreak then read flow indent acc (gap.addBreak g.char) rest
    else if g.isBlank then
      if gap.hasBreak && g.char == '\t' && g.place.column < indent then none
      else read flow indent acc (gap.addBlank g.char) rest
    else
      let parted := match gap with
        | .none => false
        | _ => true
      if parted && isOutside flow indent g rest then
        some (⟨acc.reverse, g :: rest⟩, gap.hasBreak)
      else if isMisplaced flow g rest then none
      else if isEnd flow g rest then some (⟨acc.reverse, g :: rest⟩, gap.hasBreak)
      else read flow indent (g.char :: gap.joinTo acc) .none rest

end Plain

namespace Quoted

/-- Read on in a scalar in single quotes, where two quotes stand for one. -/
def single (acc : List Char) (gap : Gap) : List Glyph → Option Scanned
  | [] => none
  | g :: rest =>
    if g.isBreak then single acc (gap.addBreak g.char) rest
    else if g.isBlank then single acc (gap.addBlank g.char) rest
    else if Glyph.isDocumentMarker (g :: rest) then none
    else if g.char == '\x27' then
      match rest with
      | h :: rest' =>
        if h.char == '\x27' then single ('\x27' :: gap.joinTo acc) .none rest'
        else some ⟨(gap.joinTo acc).reverse, rest⟩
      | [] => some ⟨(gap.joinTo acc).reverse, []⟩
    else single (g.char :: gap.joinTo acc) .none rest

/-- Where a reader of double quotes stands. -/
inductive Mode where
  | text (gap : Gap)
  /-- After a backslash. -/
  | escape
  /-- Inside a character code: digits still to come, and the value so far. -/
  | code (left : Nat) (value : Nat)

/-- The character that a backslash and this character stand for. -/
def escaped? : Char → Option Char
  | '0' => some '\x00'
  | 'a' => some '\x07'
  | 'b' => some '\x08'
  | 't' | '\t' => some '\t'
  | 'n' => some '\n'
  | 'v' => some '\x0b'
  | 'f' => some '\x0c'
  | 'r' => some '\r'
  | 'e' => some '\x1b'
  | ' ' => some ' '
  | '"' => some '"'
  | '/' => some '/'
  | '\\' => some '\\'
  | 'N' => some '\u0085'
  | '_' => some '\u00a0'
  | 'L' => some '\u2028'
  | 'P' => some '\u2029'
  | _ => none

/-- How many digits follow a letter that begins a character code. -/
def codeLength? : Char → Option Nat
  | 'x' => some 2
  | 'u' => some 4
  | 'U' => some 8
  | _ => none

/-- Read on in a scalar in double quotes. -/
def double (acc : List Char) : Mode → List Glyph → Option Scanned
  | _, [] => none
  | .text gap, g :: rest =>
    if g.isBreak then double acc (.text (gap.addBreak g.char)) rest
    else if g.isBlank then double acc (.text (gap.addBlank g.char)) rest
    else if Glyph.isDocumentMarker (g :: rest) then none
    else if g.char == '"' then some ⟨(gap.joinTo acc).reverse, rest⟩
    else if g.char == '\\' then double (gap.joinTo acc) .escape rest
    else double (g.char :: gap.joinTo acc) (.text .none) rest
  | .escape, g :: rest =>
    if g.isBreak then double acc (.text (.lines none [])) rest
    else
      match escaped? g.char, codeLength? g.char with
      | some c, _ => double (c :: acc) (.text .none) rest
      | none, some n => double acc (.code n 0) rest
      | none, none => none
  | .code left value, g :: rest =>
    match g.hexValue? with
    | none => none
    | some d =>
      let value := value * 16 + d
      if 1 < left then double acc (.code (left - 1) value) rest
      else if h : value.isValidChar then
        double (Char.ofNatAux value h :: acc) (.text .none) rest
      else none

end Quoted

namespace Block

/-- What is kept of the line ends after the last line of a block. -/
inductive Chomp where
  | strip
  | clip
  | keep
deriving DecidableEq, Repr

/-- The header of a block scalar: how it ends, and its indentation if that is written out. -/
structure Header where
  chomp : Chomp
  increment : Nat

def chomp? (g : Glyph) : Option Chomp :=
  if g.char == '+' then some .keep else if g.char == '-' then some .strip else none

def digit? (g : Glyph) : Option Nat :=
  if g.char.isDigit then some (g.char.toNat - 48) else none

/-- The one or two marks after the indicator, in either order; an indentation of zero is refused. -/
def readMarks : List Glyph → Option (Header × List Glyph)
  | [] => some (⟨.clip, 0⟩, [])
  | g :: rest =>
    match chomp? g, digit? g with
    | some c, _ =>
      match rest with
      | h :: rest' =>
        match digit? h with
        | some 0 => none
        | some d => some (⟨c, d⟩, rest')
        | none => some (⟨c, 0⟩, rest)
      | [] => some (⟨c, 0⟩, [])
    | none, some 0 => none
    | none, some d =>
      match rest with
      | h :: rest' =>
        match chomp? h with
        | some c => some (⟨c, d⟩, rest')
        | none => some (⟨.clip, d⟩, rest)
      | [] => some (⟨.clip, d⟩, [])
    | none, none => some (⟨.clip, 0⟩, g :: rest)

/-- The header with the rest of its line, which may hold a comment only. -/
def readHeader (gs : List Glyph) : Option (Header × List Glyph) := do
  let (header, rest) ← readMarks gs
  match Glyph.skipComment (Glyph.skipBlanks rest) with
  | [] => some (header, [])
  | g :: rest => if g.isBreak then some (header, rest) else none

/-- The part of a block that has been read. -/
structure Content where
  /-- Text, last character first. -/
  acc : List Char
  /-- The end of the last line. -/
  lineEnd : Option Char
  /-- Ends of empty lines after it, last first. -/
  empties : List Char
  /-- The last line begins with a blank. -/
  indented : Bool

/-- Begin a line with this glyph.  In a folded block the end of the line before it becomes a space
or is dropped, unless one of the two lines begins with a blank. -/
def Content.beginLine (literal : Bool) (c : Content) (g : Glyph) : Content :=
  let folds := !literal && c.lineEnd == some '\n' && !c.indented && !g.isBlank
  let acc :=
    if folds then if c.empties.isEmpty then ' ' :: c.acc else c.acc
    else c.lineEnd.toList ++ c.acc
  ⟨g.char :: (c.empties ++ acc), none, [], g.isBlank⟩

/-- The whole text, last character first. -/
def Content.close (chomp : Chomp) (c : Content) : List Char :=
  match chomp with
  | .strip => c.acc
  | .clip => c.lineEnd.toList ++ c.acc
  | .keep => c.empties ++ (c.lineEnd.toList ++ c.acc)

/-- Where a reader of a block stands. -/
inductive Mode where
  /-- At the left margin: the indentation, zero while unknown, and the widest margin seen. -/
  | margin (indent : Nat) (widest : Nat)
  /-- Inside a line of a block with this indentation. -/
  | line (indent : Nat)

/-- Read on in a block scalar; `least` is the smallest indentation that it may have. -/
def read (literal : Bool) (chomp : Chomp) (least : Nat) (c : Content) :
    Mode → List Glyph → Option Scanned
  | _, [] => some ⟨(c.close chomp).reverse, []⟩
  | .line indent, g :: rest =>
    if g.isBreak then
      read literal chomp least { c with lineEnd := some g.char } (.margin indent 0) rest
    else read literal chomp least { c with acc := g.char :: c.acc } (.line indent) rest
  | .margin indent widest, g :: rest =>
    let column := g.place.column
    let inMargin := indent == 0 || column < indent
    let widest := max widest column
    if inMargin && g.char == ' ' then read literal chomp least c (.margin indent widest) rest
    else if inMargin && g.char == '\t' then none
    else if g.isBreak then
      read literal chomp least { c with empties := g.char :: c.empties } (.margin indent widest) rest
    else
      let indent := if indent == 0 then max widest least else indent
      if column == indent then
        read literal chomp least (c.beginLine literal g) (.line indent) rest
      else some ⟨(c.close chomp).reverse, g :: rest⟩

/-- Read a block scalar after its indicator, inside a collection indented by `parent`. -/
def scan (literal : Bool) (parent : Int) (gs : List Glyph) : Option Scanned := do
  let (header, rest) ← readHeader gs
  let indent := if header.increment == 0 then 0 else (max parent 0).toNat + header.increment
  let least := (max (parent + 1) 1).toNat
  read literal header.chomp least ⟨[], none, [], false⟩ (.margin indent 0) rest

end Block

end LabPlan.Yaml
