import LabPlan.Problem
import LabPlan.Text.Split

/-! # Plugin paths

A plugin is named by a dotted path of at least three identifiers. -/

namespace LabPlan.Plugin

def isLetter (c : Char) : Bool := c.isAlpha || c == '_'

/-- ASCII letters, digits and underscores, no digit in front. -/
def isIdentifier : List Char → Bool
  | [] => false
  | c :: cs => isLetter c && cs.all fun c ↦ isLetter c || c.isDigit

/-- The text is a plugin path. -/
def isPath (path : String) : Bool :=
  let segments := Text.split '.' path.toList
  pluginSegments ≤ segments.length && segments.all isIdentifier

end LabPlan.Plugin
