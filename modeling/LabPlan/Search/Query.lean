import LabPlan.Search.Token
import LabPlan.Search.Trace

/-! # Search texts

A search is a list of terms between commas.  A term is bare text, or a field name and a colon
before a single word:

* `query` is `term` (`,` `term`)*, with space allowed around terms;
* `term` is `field` `:` `word`, or `word` (space `word`)*;
* `word` is one or more segments with nothing between them;
* `segment` is text in double or single quotes, a wildcard, or unquoted text.

A backslash before a character makes it stand for itself, but `\n` is a line feed.  Wildcards keep
their meaning inside quotes.  Reading fails softly where something else may still fit, and hard
where a part has begun that cannot end. -/

namespace LabPlan.Search

/-- A value that was read with the text after it, or the trace of a part that is broken. -/
abbrev Parsed (α : Type) := Except Trace (α × List Char)

namespace Parsed

variable {α β : Type}

/-- Change the value that was read. -/
def map (f : α → β) : Parsed α → Parsed β
  | .ok (a, rest) => .ok (f a, rest)
  | .error t => .error t

@[simp] theorem map_ok (f : α → β) (a : α) (rest : List Char) :
    map f (.ok (a, rest)) = .ok (f a, rest) := rfl

@[simp] theorem map_error (f : α → β) (t : Trace) : map f (.error t) = .error t := rfl

theorem map_eq_ok {f : α → β} {r : Parsed α} {b : β} {rest : List Char}
    (h : r.map f = .ok (b, rest)) : ∃ a, r = .ok (a, rest) ∧ f a = b := by
  match r with
  | .ok (a, s) =>
    simp only [map_ok, Except.ok.injEq, Prod.mk.injEq] at h
    exact ⟨a, by rw [h.2], h.1⟩
  | .error t => simp at h

end Parsed

/-- The characters that may stand between words and around terms. -/
def isSpace (c : Char) : Bool := c == ' ' || c == '\t' || c == '\r' || c == '\n'

/-- The characters of a field's name. -/
def isFieldChar (c : Char) : Bool := c.isAlpha || c == '_'

/-- The characters that stand for themselves outside quotes. -/
def isUnquoted (c : Char) : Bool :=
  !Text.isBlank c && !([',', ':', '\x27', '"', '\\', '*', '?'].contains c)

/-- The character that a backslash and this character stand for. -/
def unescape (c : Char) : Char := if c == 'n' then '\n' else c

/-- The wildcard of a character. -/
def wildcard? (c : Char) : Option Piece :=
  if c == '*' then some .anyChars else if c == '?' then some .oneChar else none

/-- A text that ends after a backslash. -/
def brokenEscape : Trace := [⟨[], .eof⟩, ⟨[], .within "escaped character"⟩]

/-- Unquoted text, perhaps none; it ends where no unquoted character follows. -/
def unquoted : List Char → Parsed (List Piece)
  | [] => .ok ([], [])
  | c :: cs =>
    if c = '\\' then
      match cs with
      | [] => .error brokenEscape
      | d :: ds => (unquoted ds).map (.char (unescape d) :: ·)
    else if isUnquoted c then (unquoted cs).map (.char c :: ·)
    else .ok ([], c :: cs)

/-- Quoted text up to the closing quote. -/
def quoted (quote : Char) : List Char → Parsed (List Piece)
  | [] => .error [⟨[], .expected quote⟩, ⟨[], .within "closing quote"⟩]
  | c :: cs =>
    if c = '\\' then
      match cs with
      | [] => .error brokenEscape
      | d :: ds => (quoted quote ds).map (.char (unescape d) :: ·)
    else if c = quote then .ok ([], cs)
    else (quoted quote cs).map ((wildcard? c).getD (.char c) :: ·)

/-- A segment of a word, if one begins here. -/
def segment? : List Char → Option (Parsed (List Piece))
  | [] => none
  | c :: cs =>
    if c = '"' ∨ c = '\x27' then some (quoted c cs)
    else
      match wildcard? c with
      | some p => some (.ok ([p], cs))
      | none => if c = '\\' ∨ isUnquoted c then some (unquoted (c :: cs)) else none

theorem unquoted_length {cs rest : List Char} {ps : List Piece}
    (h : unquoted cs = .ok (ps, rest)) : rest.length ≤ cs.length := by
  fun_induction unquoted cs generalizing ps with
  | case1 => simp_all
  | case2 => simp at h
  | case3 d ds ih =>
    obtain ⟨qs, hq, _⟩ := Parsed.map_eq_ok h
    exact Nat.le_add_right_of_le (Nat.le_add_right_of_le (ih hq))
  | case4 c cs _ _ ih =>
    obtain ⟨qs, hq, _⟩ := Parsed.map_eq_ok h
    exact Nat.le_add_right_of_le (ih hq)
  | case5 c cs => simp_all

theorem quoted_length {q : Char} {cs rest : List Char} {ps : List Piece}
    (h : quoted q cs = .ok (ps, rest)) : rest.length < cs.length := by
  fun_induction quoted q cs generalizing ps with
  | case1 => simp at h
  | case2 => simp at h
  | case3 d ds ih =>
    obtain ⟨qs, hq, _⟩ := Parsed.map_eq_ok h
    exact Nat.lt_add_right 1 (Nat.lt_add_right 1 (ih hq))
  | case4 cs => simp_all
  | case5 c cs _ _ ih =>
    obtain ⟨qs, hq, _⟩ := Parsed.map_eq_ok h
    exact Nat.lt_add_right 1 (ih hq)

/-- Unquoted text that has a first character takes it. -/
theorem unquoted_cons_length {c : Char} {cs rest : List Char} {ps : List Piece}
    (hc : c = '\\' ∨ isUnquoted c = true) (h : unquoted (c :: cs) = .ok (ps, rest)) :
    rest.length < (c :: cs).length := by
  rw [unquoted.eq_def] at h
  simp only at h
  split at h
  · split at h
    · simp at h
    · obtain ⟨qs, hq, _⟩ := Parsed.map_eq_ok h
      exact Nat.lt_add_right 1 (Nat.lt_succ_of_le (unquoted_length hq))
  · rename_i hb
    rw [if_pos (hc.resolve_left hb)] at h
    obtain ⟨qs, hq, _⟩ := Parsed.map_eq_ok h
    exact Nat.lt_succ_of_le (unquoted_length hq)

/-- A segment takes at least one character. -/
theorem segment?_length {cs rest : List Char} {ps : List Piece}
    (h : segment? cs = some (.ok (ps, rest))) : rest.length < cs.length := by
  cases cs with
  | nil => simp [segment?] at h
  | cons c cs =>
    rw [segment?] at h
    split at h
    · exact Nat.lt_add_right 1 (quoted_length (Option.some.inj h))
    · split at h
      · simp_all
      · split at h
        · rename_i hc
          exact unquoted_cons_length hc (Option.some.inj h)
        · simp at h

/-- Segments with nothing between them, perhaps none. -/
def segments (cs : List Char) : Parsed (List Piece) :=
  match _h : segment? cs with
  | none => .ok ([], cs)
  | some (.error t) => .error t
  | some (.ok (ps, rest)) => (segments rest).map (ps ++ ·)
termination_by cs.length
decreasing_by exact segment?_length _h

/-- A word, if one begins here: one or more segments. -/
def word? (cs : List Char) : Option (Parsed (List Piece)) :=
  (segment? cs).map fun _ ↦ segments cs

theorem segments_length {cs rest : List Char} {ps : List Piece}
    (h : segments cs = .ok (ps, rest)) : rest.length ≤ cs.length := by
  fun_induction segments cs generalizing ps with
  | case1 => simp_all
  | case2 => simp at h
  | case3 cs qs r hs ih =>
    obtain ⟨_, hq, _⟩ := Parsed.map_eq_ok h
    have := segment?_length hs
    have := ih hq
    omega

/-- A word takes at least one character. -/
theorem word?_length {cs rest : List Char} {ps : List Piece}
    (h : word? cs = some (.ok (ps, rest))) : rest.length < cs.length := by
  obtain ⟨o, ho, hs⟩ := Option.map_eq_some_iff.1 h
  rw [segments.eq_def] at hs
  split at hs
  · simp_all
  · simp at hs
  · rename_i qs r hr
    obtain ⟨_, hq, _⟩ := Parsed.map_eq_ok hs
    have := segment?_length hr
    have := segments_length hq
    omega

/-- Words after a first one, each with the space before it. -/
def moreWords (cs : List Char) : Parsed (List Piece) :=
  let space := cs.takeWhile isSpace
  if space.isEmpty then .ok ([], cs)
  else
    match _h : word? (cs.dropWhile isSpace) with
    | none => .ok ([], cs)
    | some (.error t) => .error t
    | some (.ok (ps, rest)) => (moreWords rest).map (space.map .char ++ ps ++ ·)
termination_by cs.length
decreasing_by
  have := word?_length _h
  have := (List.dropWhile_sublist isSpace (l := cs)).length_le
  omega

/-- Bare text, if it begins here: words with space between them, which is kept. -/
def bare? (cs : List Char) : Option (Parsed (List Piece)) :=
  match word? cs with
  | none => none
  | some (.error t) => some (.error t)
  | some (.ok (ps, rest)) => some ((moreWords rest).map (ps ++ ·))

/-- The value of a field, after the colon; a second word must not follow it. -/
def fieldValue (cs : List Char) : Parsed (List Piece) :=
  let start := cs.dropWhile isSpace
  match word? start with
  | none => .error [⟨start, .many1⟩, ⟨start, .within "field value"⟩]
  | some (.error t) => .error (t ++ [⟨start, .within "field value"⟩])
  | some (.ok (ps, rest)) =>
    let loose : Mark := ⟨rest, .within "quotes around multi-word field value"⟩
    if (rest.takeWhile isSpace).isEmpty then .ok (ps, rest)
    else
      match segment? (rest.dropWhile isSpace) with
      | none => .ok (ps, rest)
      | some (.ok _) => .error [⟨rest, .not⟩, loose]
      | some (.error t) => .error (t ++ [loose])

/-- The name of a field with the text after its colon. -/
def fieldName? (cs : List Char) : Option (String × List Char) :=
  match cs.takeWhile isFieldChar, cs.dropWhile isFieldChar with
  | c :: name, ':' :: rest => some (String.ofList (c :: name), rest)
  | _, _ => none

/-- A term, if one begins here: a field with a value, or bare text. -/
def term? (cs : List Char) : Option (Parsed Term) :=
  match fieldName? cs with
  | some (field, rest) =>
    some ((fieldValue rest).map fun ps ↦ ⟨some field, Token.ofPieces ps⟩)
  | none => (bare? cs).map (Parsed.map fun ps ↦ ⟨none, Token.ofPieces ps⟩)

/-- The text after a comma with space around it. -/
def separator? (cs : List Char) : Option (List Char) :=
  match cs.dropWhile isSpace with
  | ',' :: rest => some (rest.dropWhile isSpace)
  | _ => none

theorem length_dropWhile_le (p : Char → Bool) (cs : List Char) :
    (cs.dropWhile p).length ≤ cs.length :=
  (List.dropWhile_sublist p).length_le

theorem moreWords_length {cs rest : List Char} {ps : List Piece}
    (h : moreWords cs = .ok (ps, rest)) : rest.length ≤ cs.length := by
  fun_induction moreWords cs generalizing ps with
  | case1 => simp_all
  | case2 => simp_all
  | case3 => simp at h
  | case4 cs =>
    rename_i r hw ih
    obtain ⟨_, hq, _⟩ := Parsed.map_eq_ok h
    have := word?_length hw
    have := length_dropWhile_le isSpace cs
    have := ih hq
    omega

theorem bare?_length {cs rest : List Char} {ps : List Piece}
    (h : bare? cs = some (.ok (ps, rest))) : rest.length < cs.length := by
  unfold bare? at h
  split at h
  · simp at h
  · simp at h
  · rename_i qs r hw
    obtain ⟨_, hq, _⟩ := Parsed.map_eq_ok (Option.some.inj h)
    have := word?_length hw
    have := moreWords_length hq
    omega

theorem fieldValue_length {cs rest : List Char} {ps : List Piece}
    (h : fieldValue cs = .ok (ps, rest)) : rest.length < cs.length := by
  unfold fieldValue at h
  have hd := length_dropWhile_le isSpace cs
  simp only at h
  split at h
  · simp at h
  · simp at h
  · rename_i qs r hw
    have hl := word?_length hw
    have hr : r = rest := by
      split at h
      · simp_all
      · split at h <;> simp_all
    rw [← hr]
    omega

theorem fieldName?_length {cs rest : List Char} {name : String}
    (h : fieldName? cs = some (name, rest)) : rest.length < cs.length := by
  unfold fieldName? at h
  have hd := length_dropWhile_le isFieldChar cs
  split at h
  · rename_i hr
    simp only [hr, List.length_cons] at hd
    simp only [Option.some.injEq, Prod.mk.injEq] at h
    rw [← h.2]
    omega
  · simp at h

/-- A term takes at least one character. -/
theorem term?_length {cs rest : List Char} {t : Term}
    (h : term? cs = some (.ok (t, rest))) : rest.length < cs.length := by
  unfold term? at h
  split at h
  · rename_i hf
    obtain ⟨_, hq, _⟩ := Parsed.map_eq_ok (Option.some.inj h)
    have := fieldName?_length hf
    have := fieldValue_length hq
    omega
  · obtain ⟨o, ho, hm⟩ := Option.map_eq_some_iff.1 h
    obtain ⟨_, rfl, _⟩ := Parsed.map_eq_ok hm
    exact bare?_length ho

theorem separator?_length {cs rest : List Char} (h : separator? cs = some rest) :
    rest.length < cs.length := by
  unfold separator? at h
  have hd := length_dropWhile_le isSpace cs
  split at h
  · rename_i r hr
    have := length_dropWhile_le isSpace r
    simp only [hr, List.length_cons] at hd
    rw [← Option.some.inj h]
    omega
  · simp at h

/-- Terms after a first one.  A comma without a term after it is left unread. -/
def moreTerms (cs : List Char) : Parsed (List Term) :=
  match _hs : separator? cs with
  | none => .ok ([], cs)
  | some start =>
    match _ht : term? start with
    | none => .ok ([], cs)
    | some (.error t) => .error t
    | some (.ok (t, rest)) => (moreTerms rest).map (t :: ·)
termination_by cs.length
decreasing_by
  have := separator?_length _hs
  have := term?_length _ht
  omega

/-- All terms of a text that is not blank. -/
def query (cs : List Char) : Except Trace (List Term) :=
  let start := cs.dropWhile isSpace
  match term? start with
  | none => .error [⟨start, .many1⟩, ⟨start, .alt⟩]
  | some (.error t) => .error t
  | some (.ok (t, rest)) =>
    match moreTerms rest with
    | .error e => .error e
    | .ok (ts, rest) =>
      match rest.dropWhile isSpace with
      | [] => .ok (t :: ts)
      | left => .error [⟨left, .eof⟩]

/-! ## Errors -/

/-- Why a search is refused. -/
inductive Fault where
  | unreadable (trace : Trace)
  | unknownField (name : String)
deriving DecidableEq, Repr

/-- A search that is refused, with its text. -/
structure Error where
  text : String
  fault : Fault
deriving DecidableEq, Repr

namespace Error

def message (e : Error) : String :=
  match e.fault with
  | .unreadable t => t.explain e.text.toList
  | .unknownField name => "Unknown search field '" ++ name ++ "'"

/-- Where reading failed first. -/
def position? (e : Error) : Option Position :=
  match e.fault with
  | .unreadable (m :: _) => some (Position.locate e.text.toList m.rest)
  | _ => none

/-- The error in one piece. -/
def display (e : Error) : String :=
  let place := match e.position? with
    | some p => " at " ++ p.text
    | none => ""
  "Invalid search '" ++ e.text ++ "'" ++ place ++ ": " ++ e.message

end Error

/-- Read a search text; a blank one has no terms. -/
def read (text : String) : Except Error (List Term) :=
  if text.toList.all Text.isBlank then .ok []
  else (query text.toList).mapError fun t ↦ ⟨text, .unreadable t⟩

end LabPlan.Search
