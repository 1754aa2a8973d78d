/-!
# Ranges of code points

A set of characters given by a short list of ranges, each with its first and its last code point.
-/

namespace Jack.Text

/-- A set of characters as ranges of code points, both ends included. -/
abbrev Ranges := List (Nat × Nat)

/-- Whether some range holds the character. -/
def Ranges.contains (ranges : Ranges) (c : Char) : Bool :=
  ranges.any fun range => range.1 ≤ c.toNat && c.toNat ≤ range.2

theorem Ranges.contains_iff {ranges : Ranges} {c : Char} :
    ranges.contains c = true ↔ ∃ range ∈ ranges, range.1 ≤ c.toNat ∧ c.toNat ≤ range.2 := by
  simp [Ranges.contains]

end Jack.Text
