import Jack.Text.Ranges

/-!
# Blanks

White space of the Unicode standard: what separates tokens, and what is trimmed off a line before
two lines are compared. A line ends at a line feed only; a carriage return is a blank as well.
-/

namespace Jack.Text

/-- The code points with the property `White_Space`. -/
def blankRanges : Ranges :=
  [(0x9, 0xd), (0x20, 0x20), (0x85, 0x85), (0xa0, 0xa0), (0x1680, 0x1680), (0x2000, 0x200a),
    (0x2028, 0x2029), (0x202f, 0x202f), (0x205f, 0x205f), (0x3000, 0x3000)]

/-- Whether the character is white space. -/
def isBlank (c : Char) : Bool := blankRanges.contains c

/-- A carriage return or a line feed. -/
def isLineBreak (c : Char) : Bool := c == '\n' || c == '\r'

theorem isBlank_of_isLineBreak {c : Char} (h : isLineBreak c = true) : isBlank c = true := by
  have hc : c = '\n' ∨ c = '\r' := by simpa [isLineBreak] using h
  rcases hc with rfl | rfl <;> decide

/-- The text without the blanks at its two ends. -/
def trim (text : List Char) : List Char :=
  ((text.dropWhile isBlank).reverse.dropWhile isBlank).reverse

end Jack.Text
