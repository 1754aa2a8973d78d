/-!
# Splitting a text

A text is split at every occurrence of a separator. There is one piece more than there are
separators, and pieces may be empty.
-/

namespace Jack.Text

/-- The pieces of a text, after those already found and after the characters of the piece at hand,
both given last first. -/
def collectPieces (separator : Char) (found : List (List Char)) (piece : List Char) :
    List Char → List (List Char)
  | [] => (piece.reverse :: found).reverse
  | c :: cs =>
    if c = separator then collectPieces separator (piece.reverse :: found) [] cs
    else collectPieces separator found (c :: piece) cs

/-- The pieces between the separators of a text. -/
def split (separator : Char) (text : List Char) : List (List Char) :=
  collectPieces separator [] [] text

theorem collectPieces_cons (separator : Char) (found : List (List Char)) (piece : List Char)
    (c : Char) (cs : List Char) : collectPieces separator found piece (c :: cs) =
      if c = separator then collectPieces separator (piece.reverse :: found) [] cs
      else collectPieces separator found (c :: piece) cs := rfl

theorem collectPieces_eq (separator : Char) (found : List (List Char)) (piece cs : List Char) :
    collectPieces separator found piece cs =
      found.reverse ++ collectPieces separator [] piece cs := by
  induction cs generalizing found piece with
  | nil => simp [collectPieces]
  | cons c cs ih =>
    rw [collectPieces_cons, collectPieces_cons]
    split
    · rw [ih, ih [piece.reverse]]
      simp
    · exact ih found (c :: piece)

theorem collectPieces_append (separator : Char) (piece x y : List Char) :
    collectPieces separator [] piece (x ++ separator :: y) =
      collectPieces separator [] piece x ++ split separator y := by
  induction x generalizing piece with
  | nil =>
    rw [List.nil_append, collectPieces_cons, if_pos rfl, collectPieces_eq]
    rfl
  | cons c cs ih =>
    rw [List.cons_append, collectPieces_cons, collectPieces_cons]
    split
    · rw [collectPieces_eq, ih, collectPieces_eq separator [piece.reverse] [] cs, List.append_assoc]
    · exact ih (c :: piece)

/-- The pieces on the two sides of a separator are split independently. -/
theorem split_append (separator : Char) (x y : List Char) :
    split separator (x ++ separator :: y) = split separator x ++ split separator y :=
  collectPieces_append separator [] x y

/-- A text without separators is one piece. -/
theorem split_of_notMem {separator : Char} {text : List Char} (h : separator ∉ text) :
    split separator text = [text] := by
  have key : ∀ piece, collectPieces separator [] piece text = [piece.reverse ++ text] := by
    induction text with
    | nil => simp [collectPieces]
    | cons c cs ih =>
      intro piece
      rw [List.mem_cons, not_or] at h
      rw [collectPieces_cons, if_neg (Ne.symm h.1), ih h.2]
      simp
  exact key []

end Jack.Text
