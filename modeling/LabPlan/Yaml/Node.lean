import LabPlan.Yaml.Token

/-! # Nodes

The tree that the tokens of one document spell: scalars, sequences, mappings, and aliases of nodes
that were given a name.  Tags are already classified, and a name already stands for a number. -/

namespace LabPlan.Yaml

/-- What a tag says about its node. -/
inductive Tag where
  /-- No tag, or one that says nothing. -/
  | absent
  | bool
  | int
  | float
  | null
  /-- Any other global tag: scalars under it are strings. -/
  | global
  /-- A local tag, kept with the value. -/
  | named (name : String)
deriving DecidableEq, Repr

/-- A node of a document. -/
inductive Node where
  | scalar (tag : Tag) (plain : Bool) (text : String)
  | sequence (tag : Tag) (items : List Node)
  | mapping (tag : Tag) (entries : List (Node × Node))
  | alias (anchor : Nat)
deriving Repr, Inhabited

/-- A document: its root, and the nodes that were given a number, in the order of their starts. -/
structure Document where
  root : Node
  anchored : Array (Nat × Node)

/-- The node that an alias stands for: the last one with its number. -/
def Document.find? (d : Document) (anchor : Nat) : Option Node :=
  (d.anchored.findRev? fun e ↦ e.1 == anchor).map Prod.snd

namespace Tag

/-- The name of a local tag: one or two exclamation marks in front do not belong to it, unless
nothing would be left. -/
def localName (s : String) : String :=
  let bare (cs : List Char) := match cs with
    | ['!'] => ['!']
    | '!' :: cs => cs
    | cs => cs
  String.ofList (bare (bare s.toList))

/-- Classify a written-out tag.  A local tag that is no text says nothing; an empty tag, which a zero
octet can leave, is a global one. -/
def ofOctets (octets : List UInt8) : Tag :=
  let core (s : String) := octets == Token.octets ("tag:yaml.org,2002:" ++ s)
  if core "bool" then bool
  else if core "int" then int
  else if core "float" then float
  else if core "null" then null
  else if octets.head? == some 0x21 then
    match String.fromUTF8? (ByteArray.mk octets.toArray) with
    | some s => named (localName s)
    | none => absent
  else global

end Tag

/-! ## Nodes from tokens -/

namespace Composer

/-- What is known while a document is read: the tokens to come, the handles of tags, the numbers of
the names seen so far, and the nodes behind those numbers in the order of their starts. -/
structure State where
  tokens : List Token
  handles : List (String × List UInt8)
  names : List (String × Nat)
  anchored : Array (Nat × Node)

/-- A reader of tokens. -/
abbrev Reader (α : Type) := StateT State Option α

/-- The next token; past the last one there is none. -/
def peek : Reader (Option Token) := do return (← get).tokens.head?

def skip : Reader Unit := modify fun s ↦ { s with tokens := s.tokens.tail }

def fail {α : Type} : Reader α := fun _ ↦ none

/-- Take this token, or fail. -/
def expect (t : Token) : Reader Unit := do
  if (← peek) == some t then skip else fail

/-- The next token is one of these. -/
def nextIn (ts : List Token) : Reader Bool := do
  match ← peek with
  | some t => return ts.contains t
  | none => return false

/-- A node that is not written. -/
def empty : Node := .scalar .absent true ""

/-- The handles that need no directive. -/
def defaultHandles : List (String × List UInt8) :=
  [("!", Token.octets "!"), ("!!", Token.octets "tag:yaml.org,2002:")]

/-- The tag that a token writes, its handle replaced by what the handle stands for. -/
def resolveTag (handle : String) (suffix : List UInt8) : Reader Tag := do
  if handle.isEmpty then return Tag.ofOctets suffix
  match (← get).handles.lookup handle with
  | some lead => return Tag.ofOctets (lead ++ suffix)
  | none => fail

/-- A name is given to the node that starts here.  Its number is how many names there are so far;
the result is the slot that the node will take. -/
def openSlot (name : String) : Reader Nat := do
  let s ← get
  let id := s.names.length
  set { s with
    names := (name, id) :: s.names.filter (·.1 ≠ name)
    anchored := s.anchored.push (id, empty) }
  return s.anchored.size

/-- The properties in front of a node: its tag and name, each at most once, in either order. -/
def properties : Reader (Option Tag × Option String) := do
  let anchor? : Reader (Option String) := do
    match ← peek with
    | some (.anchor name) => skip; return some name
    | _ => return none
  let tag? : Reader (Option (String × List UInt8)) := do
    match ← peek with
    | some (.tag handle suffix) => skip; return some (handle, suffix)
    | _ => return none
  let resolve (t : Option (String × List UInt8)) : Reader (Option Tag) := do
    match t with
    | some (handle, suffix) => return some (← resolveTag handle suffix)
    | none => return none
  match ← anchor? with
  | some name =>
    let t ← tag?
    return (← resolve t, some name)
  | none =>
    match ← tag? with
    | some t =>
      let name ← anchor?
      return (← resolve (some t), name)
    | none => return (none, none)

/-- Where a node may stand. -/
inductive Position where
  /-- Inside a flow collection. -/
  | flow
  | block
  /-- A key or a value of a block mapping, where a sequence needs no indentation of its own. -/
  | blockEntry
deriving DecidableEq

/-- Put the node into its slot, if it has one. -/
def keep (slot : Option Nat) (n : Node) : Reader Node := do
  match slot with
  | some i => modify fun s ↦ { s with anchored := s.anchored.modify i fun e ↦ (e.1, n) }
  | none => pure ()
  return n

mutual

/-- Read a node.  The first argument bounds the depth of calls. -/
def node : Nat → Position → Reader Node
  | 0, _ => fail
  | n + 1, position => do
    match ← peek with
    | some (.alias name) =>
      skip
      match (← get).names.lookup name with
      | some id => return .alias id
      | none => fail
    | _ =>
      let (tag, name) ← properties
      let slot ← match name with
        | some name => some <$> openSlot name
        | none => pure none
      let tagged := tag.getD .absent
      match ← peek, position with
      | some .blockEntry, .blockEntry => keep slot (.sequence tagged (← bareItems n))
      | some (.scalar text plain), _ =>
        skip
        keep slot (.scalar tagged plain text)
      | some .flowSequenceStart, _ =>
        skip
        keep slot (.sequence tagged (← flowItems n true))
      | some .flowMappingStart, _ =>
        skip
        keep slot (.mapping tagged (← flowEntries n true))
      | some .blockSequenceStart, .block | some .blockSequenceStart, .blockEntry =>
        skip
        keep slot (.sequence tagged (← blockItems n))
      | some .blockMappingStart, .block | some .blockMappingStart, .blockEntry =>
        skip
        keep slot (.mapping tagged (← blockEntries n))
      | _, _ =>
        if tag.isSome || name.isSome then keep slot (.scalar tagged true "") else fail

/-- Items of a block sequence up to its end. -/
def blockItems : Nat → Reader (List Node)
  | 0 => fail
  | n + 1 => do
    match ← peek with
    | some .blockEntry =>
      skip
      let item ← if ← nextIn [.blockEntry, .blockEnd] then pure empty else node n .block
      return item :: (← blockItems n)
    | some .blockEnd => skip; return []
    | _ => fail

/-- Items of a sequence without indentation of its own. -/
def bareItems : Nat → Reader (List Node)
  | 0 => fail
  | n + 1 => do
    match ← peek with
    | some .blockEntry =>
      skip
      let item ← if ← nextIn [.blockEntry, .key, .value, .blockEnd] then pure empty
        else node n .block
      return item :: (← bareItems n)
    | _ => return []

/-- Entries of a block mapping up to its end. -/
def blockEntries : Nat → Reader (List (Node × Node))
  | 0 => fail
  | n + 1 => do
    let part : Reader Node := do
      if ← nextIn [.key, .value, .blockEnd] then pure empty else node n .blockEntry
    match ← peek with
    | some .key =>
      skip
      let key ← part
      let value ← if ← nextIn [.value] then do
          skip
          part
        else pure empty
      return (key, value) :: (← blockEntries n)
    | some .blockEnd => skip; return []
    | _ => fail

/-- Items of a flow sequence up to its end; `first` before any item. -/
def flowItems : Nat → Bool → Reader (List Node)
  | 0, _ => fail
  | n + 1, first => do
    if ← nextIn [.flowSequenceEnd] then
      skip
      return []
    if !first then expect .flowEntry
    match ← peek with
    | some .key =>
      skip
      let pair ← flowPair n
      return .mapping .absent [pair] :: (← flowItems n false)
    | some .flowSequenceEnd => skip; return []
    | _ =>
      let item ← node n .flow
      return item :: (← flowItems n false)

/-- A single entry inside a flow sequence, after the mark of its key.  In place of a key that is
not written the next token is taken, whatever it is. -/
def flowPair : Nat → Reader (Node × Node)
  | 0 => fail
  | n + 1 => do
    let key ← if ← nextIn [.value, .flowEntry, .flowSequenceEnd] then do
        skip
        pure empty
      else node n .flow
    if ← nextIn [.value] then
      skip
      let value ← if ← nextIn [.flowEntry, .flowSequenceEnd] then pure empty else node n .flow
      return (key, value)
    else return (key, empty)

/-- Entries of a flow mapping up to its end; `first` before any entry. -/
def flowEntries : Nat → Bool → Reader (List (Node × Node))
  | 0, _ => fail
  | n + 1, first => do
    if ← nextIn [.flowMappingEnd] then
      skip
      return []
    if !first then expect .flowEntry
    match ← peek with
    | some .key =>
      skip
      let key ← if ← nextIn [.value, .flowEntry, .flowMappingEnd] then pure empty
        else node n .flow
      let value ← if ← nextIn [.value] then do
          skip
          if ← nextIn [.flowEntry, .flowMappingEnd] then pure empty else node n .flow
        else pure empty
      return (key, value) :: (← flowEntries n false)
    | some .flowMappingEnd => skip; return []
    | _ =>
      let key ← node n .flow
      return (key, empty) :: (← flowEntries n false)

end

/-- The directives in front of a document: at most one version, which must be 1.1 or 1.2, and at
most one meaning for a handle. -/
def directives (versioned : Bool) (handles : List (String × List UInt8)) :
    List Token → Option (List (String × List UInt8) × List Token)
  | .version major minor :: ts =>
    if versioned || major ≠ 1 || (minor ≠ 1 && minor ≠ 2) then none
    else directives true handles ts
  | .tagHandle handle lead :: ts =>
    if (handles.lookup handle).isSome then none
    else directives versioned ((handle, lead) :: handles) ts
  | ts => some (handles ++ defaultHandles, ts)

/-- Nothing may follow a document but document ends. -/
def isDone (ts : List Token) : Bool := ts.all (· == .documentEnd)

/-- The only document of a text; an empty text has an empty one. -/
def document (ts : List Token) : Option Document := do
  if ts.isEmpty then return ⟨empty, #[]⟩
  let (handles, rest) ← directives false [] ts
  let explicit := rest.length < ts.length || rest.head? == some .documentStart
  if explicit && rest.head? != some .documentStart then none
  let body := if explicit then rest.tail else rest
  let read : Reader Node := do
    let bare := match (← peek) with
      | none | some (.version _ _) | some (.tagHandle _ _) | some .documentStart
      | some .documentEnd => explicit
      | _ => false
    if bare then return empty else node (2 * ts.length + 2) .block
  let (root, s) ← read.run ⟨body, handles, [], #[]⟩
  if isDone s.tokens then return ⟨root, s.anchored⟩ else none

end Composer

/-- Read the only document of a text. -/
def Document.ofText (text : String) : Option Document := do
  let gs ← glyphs text
  let ts ← Token.ofGlyphs gs
  Composer.document ts

end LabPlan.Yaml
