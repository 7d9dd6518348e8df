import LabPlan.Search.Position
import LabPlan.Text.Split

/-! # Going back from a position

A position tells what comes before it: the lines above, and the beginning of its own line. -/

namespace LabPlan.Search.Position

/-- What stands before a position. -/
def before (text : List Char) (p : Position) : List Char :=
  let lines := Text.split '\n' text
  (lines.take (p.line - 1)).flatMap (· ++ ['\n']) ++
    (lines.getD (p.line - 1) []).take (p.column - 1)

/-- Positions in reading order. -/
def Precedes (p q : Position) : Prop := p.line < q.line ∨ p.line = q.line ∧ p.column < q.column

end LabPlan.Search.Position
