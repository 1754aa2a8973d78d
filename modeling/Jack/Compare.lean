import Jack.Text.Blank
import Jack.Text.Split

/-!
# Comparing texts

Two texts are compared line by line. A line ends at a line feed, and a line feed at the end of the
text begins no further line. Blanks at the ends of a line do not count, so a carriage return before
the line feed does not either.
-/

namespace Jack

/-- The lines of a text. What follows the last line feed is a line unless it is empty. -/
def textLines (text : List Char) : List (List Char) :=
  let pieces := Text.split '\n' text
  if pieces.getLast? = some [] then pieces.dropLast else pieces

/-- The lines of a text without the blanks at their ends. -/
def trimmedLines (text : String) : List (List Char) := (textLines text.toList).map Text.trim

/-- What comparing two texts finds. -/
inductive Comparison where
  | identical
  /-- The first line in which the texts differ, counted from 1. -/
  | differAt (line : Nat)
  deriving DecidableEq, Repr

/-- Compare two lists of lines, the first of which has the given number. -/
def compareLines (number : Nat) : List (List Char) → List (List Char) → Comparison
  | [], [] => .identical
  | a :: as, b :: bs => if a = b then compareLines (number + 1) as bs else .differAt number
  | [], _ :: _ | _ :: _, [] => .differAt number

/-- Compare two texts. -/
def compareTexts (left right : String) : Comparison :=
  compareLines 1 (trimmedLines left) (trimmedLines right)

end Jack
