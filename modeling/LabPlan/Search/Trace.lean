import LabPlan.Text.Blank
import LabPlan.Search.Position

/-! # Traces of failed searches

A search text that cannot be read is explained by a trace: the places where reading failed, from
the inside out, each with what was expected there. -/

namespace LabPlan.Search

/-- What failed at a place. -/
inductive Cause where
  /-- Inside a part of the grammar, by its name. -/
  | within (part : String)
  /-- This character was expected. -/
  | expected (c : Char)
  /-- The text ends here, or should end here. -/
  | eof
  /-- One or more of something were expected. -/
  | many1
  /-- None of the alternatives fits. -/
  | alt
  /-- Something stands here that must not. -/
  | not
deriving DecidableEq, Repr

/-- A failure, with the text that was left to read. -/
structure Mark where
  rest : List Char
  cause : Cause
deriving DecidableEq, Repr

/-- Failures from the inside out. -/
abbrev Trace := List Mark

namespace Trace

/-- The line on which the rest of a text begins, without blanks at its end. -/
def lineAt (front rest : List Char) : List Char :=
  let start := (front.reverse.takeWhile (· != '\n')).reverse
  Text.trimEnd (start ++ rest.takeWhile (· != '\n'))

/-- How a cause is announced after the number of its line. -/
def heading : Cause → String
  | .within part => ", in " ++ part
  | .expected _ => ""
  | .eof => ", in Eof"
  | .many1 => ", in Many1"
  | .alt => ", in Alt"
  | .not => ", in Not"

/-- What is said below the line. -/
def footing (rest : List Char) : Cause → String
  | .expected c =>
    let found := match rest with
      | d :: _ => "', found " ++ String.ofList [d]
      | [] => "', got end of input"
    "expected '" ++ String.ofList [c] ++ found ++ "\n\n"
  | _ => "\n"

/-- One failure: its number, the line it stands on, and a caret under its place. -/
def markText (text : List Char) (i : Nat) (m : Mark) : String :=
  let front := text.take (text.length - m.rest.length)
  let start := (front.reverse.takeWhile (· != '\n')).reverse
  toString i ++ ": at line " ++ toString (front.count '\n' + 1) ++ heading m.cause ++ ":\n" ++
    String.ofList (lineAt front m.rest) ++ "\n" ++
    String.ofList (List.replicate (Position.octets start) ' ') ++ "^\n" ++ footing m.rest m.cause

/-- The whole explanation. -/
def explain (text : List Char) (t : Trace) : String :=
  let marks := t.zipIdx.map fun e ↦ markText text e.2 e.1
  String.ofList (Text.trimEnd (String.join marks).toList)

end Trace

end LabPlan.Search
