/-! # Blank characters

The Unicode property `White_Space`: the twenty-five characters that separate words.  Reference
parts may not hold one, unquoted search text ends before one, and text is trimmed of them. -/

namespace LabPlan.Text

/-- Membership in `White_Space`. -/
def isBlank (c : Char) : Bool :=
  let n := c.toNat
  (9 ≤ n && n ≤ 13) || n == 0x20 || n == 0x85 || n == 0xa0 || n == 0x1680 ||
    (0x2000 ≤ n && n ≤ 0x200a) || n == 0x2028 || n == 0x2029 || n == 0x202f || n == 0x205f ||
    n == 0x3000

/-- The text without the blanks at its end. -/
def trimEnd (cs : List Char) : List Char :=
  (cs.reverse.dropWhile isBlank).reverse

end LabPlan.Text
