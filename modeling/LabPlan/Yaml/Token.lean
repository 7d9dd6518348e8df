import LabPlan.Yaml.Scalar

/-! # Tokens

The words of a YAML text: indicators, scalars, tags, anchors and directives, and the marks of
where block collections begin and end.  A mapping key without an indicator of its own is seen only
at the colon that follows it, so the place of every token that may be such a key is kept until the
colon comes, the line ends, or 1024 bytes have gone by. -/

namespace LabPlan.Yaml

/-- A token.  Tags are kept as octets, since a tag may spell octets that are no text. -/
inductive Token where
  | version (major minor : Nat)
  | tagHandle (handle : String) (lead : List UInt8)
  | documentStart
  | documentEnd
  | blockSequenceStart
  | blockMappingStart
  | blockEnd
  | flowSequenceStart
  | flowSequenceEnd
  | flowMappingStart
  | flowMappingEnd
  | blockEntry
  | flowEntry
  | key
  | value
  | alias (name : String)
  | anchor (name : String)
  | tag (handle : String) (suffix : List UInt8)
  | scalar (text : String) (plain : Bool)
deriving DecidableEq, Repr

namespace Token

/-! ## Tags -/

/-- Characters that stand for themselves in a tag. -/
def isUriChar (enclosed : Bool) (c : Char) : Bool :=
  Glyph.isWordChar c ||
    [';', '/', '?', ':', '@', '&', '=', '+', '$', '.', '!', '~', '*', '\x27', '(', ')'].contains c ||
    (enclosed && [',', '[', ']'].contains c)

/-- How many octets a character takes whose first octet is this one. -/
def octetCount (o : Nat) : Nat :=
  if o < 0x80 then 1
  else if 0xc0 ≤ o && o < 0xe0 then 2
  else if 0xe0 ≤ o && o < 0xf0 then 3
  else if 0xf0 ≤ o && o < 0xf8 then 4
  else 0

/-- Read the octets of a tag, last first; `due` octets of a spelled-out character are still to
come.  Inside angle brackets (`enclosed`) some flow indicators are allowed too. -/
def readUri (enclosed : Bool) (due : Nat) (acc : List UInt8) :
    List Glyph → Option (List UInt8 × List Glyph)
  | [] => if due = 0 then some (acc, []) else none
  | g :: rest =>
    if g.char == '%' then
      match rest with
      | a :: b :: rest' =>
        match a.hexValue?, b.hexValue? with
        | some h, some l =>
          let o := 16 * h + l
          if due = 0 then
            if octetCount o = 0 then none
            else readUri enclosed (octetCount o - 1) (UInt8.ofNat o :: acc) rest'
          else if 0x80 ≤ o && o < 0xc0 then
            readUri enclosed (due - 1) (UInt8.ofNat o :: acc) rest'
          else none
        | _, _ => none
      | _ => none
    else if due ≠ 0 then none
    else if isUriChar enclosed g.char then
      readUri enclosed 0 (UInt8.ofNat g.char.toNat :: acc) rest
    else some (acc, g :: rest)

/-- The octets of a tag in order, which end before a zero octet, and whether anything was read. -/
def uri (enclosed : Bool) (gs : List Glyph) : Option (List UInt8 × Bool × List Glyph) := do
  let (acc, rest) ← readUri enclosed 0 [] gs
  return (acc.reverse.takeWhile (· ≠ 0), !acc.isEmpty, rest)

def octets (s : String) : List UInt8 := s.toUTF8.toList

/-- Letters, digits, hyphens and underscores at the front. -/
def word (gs : List Glyph) : String × List Glyph :=
  (String.ofList ((gs.takeWhile Glyph.isWord).map Glyph.char), gs.dropWhile Glyph.isWord)

/-- A tag, read after its exclamation mark. -/
def readTag (flow : Bool) (gs : List Glyph) : Option (Token × List Glyph) := do
  let (token, rest) ←
    if Glyph.startsWith '<' gs then do
      let (suffix, any, rest) ← uri true gs.tail
      if any && Glyph.startsWith '>' rest then some (tag "" suffix, rest.tail) else none
    else do
      let (name, rest) := word gs
      if Glyph.startsWith '!' rest then
        let (suffix, any, rest) ← uri false rest.tail
        if any then some (tag ("!" ++ name ++ "!") suffix, rest) else none
      else
        let (more, _, rest) ← uri false rest
        let suffix := octets name ++ more
        if suffix.isEmpty then some (tag "" (octets "!"), rest) else some (tag "!" suffix, rest)
  if Glyph.endsWord rest || (flow && Glyph.startsWith ',' rest) then some (token, rest) else none

/-- An anchor's or alias's name, read after its indicator. -/
def readName (gs : List Glyph) : Option (String × List Glyph) :=
  let (name, rest) := word gs
  if name.isEmpty then none
  else if Glyph.endsWord rest ||
      Glyph.startsWithAny ['?', ':', ',', ']', '\x7d', '%', '@', '\x60'] rest then
    some (name, rest)
  else none

/-! ## Directives -/

/-- A number of at most nine digits. -/
def readNumber (gs : List Glyph) : Option (Nat × List Glyph) :=
  let ds := gs.takeWhile (·.char.isDigit)
  if ds.isEmpty || 9 < ds.length then none
  else
    some (ds.foldl (fun n g ↦ n * 10 + (g.char.toNat - 48)) 0, gs.dropWhile (·.char.isDigit))

def readVersion (gs : List Glyph) : Option (Token × List Glyph) := do
  let (major, rest) ← readNumber (Glyph.skipBlanks gs)
  if Glyph.startsWith '.' rest then
    let (minor, rest) ← readNumber rest.tail
    some (version major minor, rest)
  else none

def readTagHandle (gs : List Glyph) : Option (Token × List Glyph) := do
  let gs := Glyph.skipBlanks gs
  if !Glyph.startsWith '!' gs then none
  let (name, rest) := word gs.tail
  let (handle, rest) ←
    if Glyph.startsWith '!' rest then some ("!" ++ name ++ "!", rest.tail)
    else if name.isEmpty then some ("!", rest)
    else none
  match rest with
  | g :: _ =>
    if !g.isBlank then none
    let (lead, any, rest) ← uri true (Glyph.skipBlanks rest)
    if any && Glyph.endsWord rest then some (tagHandle handle lead, rest) else none
  | [] => none

/-- A directive with the rest of its line, read after the percent sign. -/
def readDirective (gs : List Glyph) : Option (Token × List Glyph) := do
  let (name, rest) := word gs
  if !Glyph.endsWord rest then none
  let (token, rest) ←
    if name = "YAML" then readVersion rest
    else if name = "TAG" then readTagHandle rest
    else none
  match Glyph.skipComment (Glyph.skipBlanks rest) with
  | [] => some (token, [])
  | g :: rest => if g.isBreak then some (token, rest) else none

end Token

/-! ## Reading tokens -/

namespace Lexer

/-- A token that may turn out to be a key: where it stands in the text and in the list of tokens,
and whether nothing else can stand there. -/
structure Candidate where
  place : Place
  number : Nat
  required : Bool
deriving Repr

/-- The state of a reader of tokens. -/
structure State where
  rest : List Glyph
  tokens : Array Token
  /-- Column of the innermost block collection, `-1` outside of all. -/
  indent : Int
  /-- Columns of the block collections around it. -/
  indents : List Int
  /-- The possible key of the innermost flow collection, or of the block. -/
  candidate : Option Candidate
  /-- The possible keys of the flow collections around it and of the block. -/
  outer : List (Option Candidate)
  /-- A key may begin here. -/
  keyAllowed : Bool

def State.start (gs : List Glyph) : State :=
  ⟨gs, #[], -1, [], none, [], true⟩

namespace State

/-- Inside a flow collection. -/
def inFlow (s : State) : Bool := !s.outer.isEmpty

def push (t : Token) (s : State) : State := { s with tokens := s.tokens.push t }

def insertAt (n : Nat) (t : Token) (s : State) : State :=
  { s with tokens := s.tokens.insertIdxIfInBounds n t }

/-- What follows the blanks, line ends and comments at the front, and whether a key may begin there.
Where a key may begin a tab is no blank; a line end allows one in a block.  With `comment` a comment
has begun. -/
def afterGap (flow comment allowed : Bool) : List Glyph → List Glyph × Bool
  | [] => ([], allowed)
  | g :: rest =>
    if g.isBreak then afterGap flow false (allowed || !flow) rest
    else if comment || g.char == '#' then afterGap flow true allowed rest
    else if g.isByteOrderMark || g.char == ' ' || (g.char == '\t' && (flow || !allowed)) then
      afterGap flow false allowed rest
    else (g :: rest, allowed)

/-- Skip everything up to the next token. -/
def toNextToken (s : State) : State :=
  let (rest, allowed) := afterGap s.inFlow false s.keyAllowed s.rest
  { s with rest := rest, keyAllowed := allowed }

/-- A possible key that is too far back to become one. -/
def isStale (here : Place) (c : Candidate) : Bool :=
  c.place.line < here.line || c.place.offset + 1024 < here.offset

/-- Give up the possible keys that are too far back; a required one is an error. -/
def dropStale (here : Place) (s : State) : Option State :=
  let stale (c : Option Candidate) : Bool := c.any (isStale here)
  let needed (c : Option Candidate) : Bool := c.any fun c ↦ isStale here c && c.required
  if needed s.candidate || s.outer.any needed then none
  else
    let keep (c : Option Candidate) := if stale c then none else c
    some { s with candidate := keep s.candidate, outer := s.outer.map keep }

/-- Close the block collections that begin to the right of a column. -/
def unroll (column : Int) (s : State) : State :=
  if s.inFlow then s
  else
    let closed := (s.indent :: s.indents).takeWhile (column < ·)
    let left := (s.indent :: s.indents).dropWhile (column < ·)
    { s with
      tokens := closed.foldl (fun ts _ ↦ ts.push .blockEnd) s.tokens
      indent := left.headD (-1)
      indents := left.tail }

/-- Open a block collection at a column, if none is open there; its mark goes to the place
`number` of the tokens. -/
def roll (column : Nat) (number : Nat) (t : Token) (s : State) : State :=
  if s.inFlow || column ≤ s.indent then s
  else { s with indents := s.indent :: s.indents, indent := column }.insertAt number t

/-- Give up the innermost possible key; a required one is an error. -/
def dropKey (s : State) : Option State :=
  if s.candidate.any (·.required) then none else some { s with candidate := none }

/-- Note that the token about to be read may be a key. -/
def saveKey (here : Place) (s : State) : Option State :=
  if s.keyAllowed then do
    let required := !s.inFlow && s.indent == here.column
    let s ← s.dropKey
    some { s with candidate := some ⟨here, s.tokens.size, required⟩ }
  else some s

/-- A directive or a document marker closes everything. -/
def atMargin (s : State) : Option State := do
  let s ← (s.unroll (-1)).dropKey
  some { s with keyAllowed := false }

def openFlow (here : Place) (t : Token) (rest : List Glyph) (s : State) : Option State := do
  let s ← s.saveKey here
  some { s.push t with
    rest := rest, candidate := none, outer := s.candidate :: s.outer, keyAllowed := true }

def closeFlow (t : Token) (rest : List Glyph) (s : State) : Option State := do
  let s ← s.dropKey
  let s := { s.push t with rest := rest, keyAllowed := false }
  match s.outer with
  | [] => some s
  | c :: outer => some { s with candidate := c, outer := outer }

def flowEntry (rest : List Glyph) (s : State) : Option State := do
  let s ← s.dropKey
  some { s.push .flowEntry with rest := rest, keyAllowed := true }

def blockEntry (here : Place) (rest : List Glyph) (s : State) : Option State := do
  if !s.inFlow && !s.keyAllowed then none
  let s ← (s.roll here.column s.tokens.size .blockSequenceStart).dropKey
  some { s.push .blockEntry with rest := rest, keyAllowed := true }

def key (here : Place) (rest : List Glyph) (s : State) : Option State := do
  if !s.inFlow && !s.keyAllowed then none
  let s ← (s.roll here.column s.tokens.size .blockMappingStart).dropKey
  some { s.push .key with rest := rest, keyAllowed := !s.inFlow }

/-- A colon: the possible key before it becomes one, else it follows an explicit key. -/
def value (here : Place) (rest : List Glyph) (s : State) : Option State :=
  match s.candidate with
  | some c =>
    let s := (s.insertAt c.number .key).roll c.place.column c.number .blockMappingStart
    some { s.push .value with rest := rest, candidate := none, keyAllowed := false }
  | none =>
    if !s.inFlow && !s.keyAllowed then none
    else
      let s := s.roll here.column s.tokens.size .blockMappingStart
      some { s.push .value with rest := rest, keyAllowed := !s.inFlow }

/-- A token that may be a key, already read. -/
def content (here : Place) (t : Token) (rest : List Glyph) (s : State) : Option State := do
  let s ← s.saveKey here
  some { s.push t with rest := rest, keyAllowed := false }

def plain (here : Place) (gs : List Glyph) (s : State) : Option State := do
  let s ← s.saveKey here
  let (scanned, leftLine) ← Plain.read s.inFlow (s.indent + 1).toNat [] .none gs
  some { s.push (.scalar (String.ofList scanned.text) true) with
    rest := scanned.rest, keyAllowed := leftLine }

def block (literal : Bool) (rest : List Glyph) (s : State) : Option State := do
  let s ← s.dropKey
  let scanned ← Block.scan literal s.indent rest
  some { s.push (.scalar (String.ofList scanned.text) false) with
    rest := scanned.rest, keyAllowed := true }

/-- A plain scalar begins with a character that is no indicator, or with one of three indicators
that has something attached to it. -/
def beginsPlain (s : State) (g : Glyph) (rest : List Glyph) : Bool :=
  let indicators := ['-', '?', ':', ',', '[', ']', '\x7b', '\x7d', '#', '&', '*', '!', '|', '>',
    '\x27', '"', '%', '@', '\x60']
  let blankNext := match rest with
    | h :: _ => h.isBlank
    | [] => false
  !(g.isBlank || g.isBreak || indicators.contains g.char) || (g.char == '-' && !blankNext) ||
    (!s.inFlow && (g.char == '?' || g.char == ':') && !Glyph.endsWord rest)

/-- Read the token that begins here. -/
def fetch (g : Glyph) (rest : List Glyph) (s : State) : Option State :=
  let here := g.place
  let apart := Glyph.endsWord rest
  let text (r : Option Scanned) : Option State := do
    let scanned ← r
    s.content here (.scalar (String.ofList scanned.text) false) scanned.rest
  if here.column == 0 && g.char == '%' then do
    let s ← s.atMargin
    let (t, rest) ← Token.readDirective rest
    some { s.push t with rest := rest }
  else if Glyph.isMarker '-' (g :: rest) then do
    let s ← s.atMargin
    some { s.push .documentStart with rest := rest.drop 2 }
  else if Glyph.isMarker '.' (g :: rest) then do
    let s ← s.atMargin
    some { s.push .documentEnd with rest := rest.drop 2 }
  else if g.char == '[' then s.openFlow here .flowSequenceStart rest
  else if g.char == '\x7b' then s.openFlow here .flowMappingStart rest
  else if g.char == ']' then s.closeFlow .flowSequenceEnd rest
  else if g.char == '\x7d' then s.closeFlow .flowMappingEnd rest
  else if g.char == ',' then s.flowEntry rest
  else if g.char == '-' && apart then s.blockEntry here rest
  else if g.char == '?' && (s.inFlow || apart) then s.key here rest
  else if g.char == ':' && (s.inFlow || apart) then s.value here rest
  else if g.char == '*' then do
    let (name, rest) ← Token.readName rest
    s.content here (.alias name) rest
  else if g.char == '&' then do
    let (name, rest) ← Token.readName rest
    s.content here (.anchor name) rest
  else if g.char == '!' then do
    let (t, rest) ← Token.readTag s.inFlow rest
    s.content here t rest
  else if g.char == '|' && !s.inFlow then s.block true rest
  else if g.char == '>' && !s.inFlow then s.block false rest
  else if g.char == '\x27' then text (Quoted.single [] .none rest)
  else if g.char == '"' then text (Quoted.double [] (.text .none) rest)
  else if s.beginsPlain g rest then s.plain here (g :: rest)
  else none

/-- Read all tokens.  Each but the last takes a character, so `n` glyphs need at most `n + 1`
rounds. -/
def readAll : Nat → State → Option (Array Token)
  | 0, _ => none
  | n + 1, s =>
    let s := s.toNextToken
    match s.rest with
    | [] => ((s.unroll (-1)).dropKey).map (·.tokens)
    | g :: rest => do
      let s ← s.dropStale g.place
      let s ← (s.unroll g.place.column).fetch g rest
      readAll n s

end State

end Lexer

/-- The tokens of a text; `none` if it has a word that is no YAML. -/
def Token.ofGlyphs (gs : List Glyph) : Option (List Token) :=
  ((Lexer.State.start gs).readAll (gs.length + 1)).map Array.toList

end LabPlan.Yaml
