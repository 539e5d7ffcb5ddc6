/-
  Descent.Text.Blank

  Which characters count as white space: the line and page controls, the four
  information separators, and the space characters of every script.
-/
import Descent.Text.Ranges

namespace Descent.Text

/-- Code points of white space, ascending. -/
def blankRanges : Ranges :=
  [(0x0009, 0x000D), (0x001C, 0x0020), (0x0085, 0x0085), (0x00A0, 0x00A0), (0x1680, 0x1680),
   (0x2000, 0x200A), (0x2028, 0x2029), (0x202F, 0x202F), (0x205F, 0x205F), (0x3000, 0x3000)]

theorem blankRanges_ascending : blankRanges.Ascending := by decide +kernel

/-- Whether the character is white space. -/
def isBlank (c : Char) : Bool := blankRanges.contains c

/-- White space is what the table lists. -/
theorem isBlank_iff (c : Char) :
    isBlank c = true ↔ ∃ r ∈ blankRanges, r.1 ≤ c.toNat ∧ c.toNat ≤ r.2 :=
  Ranges.contains_iff blankRanges_ascending c

end Descent.Text
