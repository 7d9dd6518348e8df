/-! # Positions in a search text -/

namespace LabPlan.Search

/-- A line and a column, both from one; columns count characters. -/
structure Position where
  line : Nat
  column : Nat
deriving DecidableEq, Repr

namespace Position

/-- How many octets a text takes. -/
def octets : List Char → Nat
  | [] => 0
  | c :: cs => c.utf8Size + octets cs

/-- The characters that fill exactly `n` octets at the front of a text. -/
def front? : Nat → List Char → Option (List Char)
  | 0, _ => some []
  | _, [] => none
  | n, c :: cs => if c.utf8Size ≤ n then (front? (n - c.utf8Size) cs).map (c :: ·) else none

/-- The position after some characters. -/
def after (front : List Char) : Position :=
  ⟨front.count '\n' + 1, (front.reverse.takeWhile (· != '\n')).length + 1⟩

/-- Where the rest of a text begins, going by the lengths of both.  If that is inside a character
the position is the end of the text. -/
def locate (text rest : List Char) : Position :=
  after ((front? (octets text - octets rest) text).getD text)

def text (p : Position) : String :=
  "line " ++ toString p.line ++ ", column " ++ toString p.column

end Position

end LabPlan.Search
