import Jack.Text.Split

/-!
# Pieces of a text

Splitting at a separator is the library's `List.splitOn`, so splitting and joining undo each other:
joined, the pieces are the text again (`intercalate_split`), and pieces without a separator are what
the joined text is split into (`split_intercalate`).
-/

namespace Jack.Text

variable {separator : Char} {text piece : List Char} {pieces : List (List Char)}

theorem collectPieces_eq_modifyHead (separator : Char) (piece cs : List Char) :
    collectPieces separator [] piece cs =
      (cs.splitOn separator).modifyHead (piece.reverse ++ ·) := by
  induction cs generalizing piece with
  | nil => simp [collectPieces]
  | cons c cs ih =>
    rw [collectPieces_cons, List.splitOn, List.splitOnP_cons_eq_if_modifyHead, ← List.splitOn]
    by_cases h : c = separator
    · rw [if_pos h, if_pos (by simpa using h), collectPieces_eq, ih]
      cases cs.splitOn separator <;> simp
    · rw [if_neg h, if_neg (by simpa using h), ih, List.modifyHead_modifyHead]
      congr 1
      funext rest
      simp

theorem split_eq_splitOn (separator : Char) (text : List Char) :
    split separator text = text.splitOn separator := by
  rw [split, collectPieces_eq_modifyHead]
  cases text.splitOn separator <;> simp

/-- The pieces of a text, joined, are the text. -/
theorem intercalate_split (separator : Char) (text : List Char) :
    [separator].intercalate (split separator text) = text := by
  rw [split_eq_splitOn, List.intercalate_splitOn]

/-- Pieces without a separator are the pieces of what they are joined to. -/
theorem split_intercalate (h : ∀ piece ∈ pieces, separator ∉ piece) (hne : pieces ≠ []) :
    split separator ([separator].intercalate pieces) = pieces := by
  rw [split_eq_splitOn, List.splitOn_intercalate separator h hne]

/-- No piece of a text holds a separator. -/
theorem notMem_of_mem_split (h : piece ∈ split separator text) : separator ∉ piece := by
  rw [split_eq_splitOn] at h
  induction text generalizing piece with
  | nil => simp_all
  | cons c cs ih =>
    rw [List.splitOn_cons_eq_if_modifyHead] at h
    obtain ⟨first, rest, hsplit⟩ := List.exists_cons_of_ne_nil (List.splitOn_ne_nil separator cs)
    rw [hsplit] at h ih
    split at h
    · obtain rfl | hmem := List.mem_cons.mp h
      · simp
      · exact ih hmem
    · rename_i hne
      obtain rfl | hmem := List.mem_cons.mp h
      · have hfirst := ih List.mem_cons_self
        simpa [hfirst] using Ne.symm (by simpa using hne)
      · exact ih (List.mem_cons_of_mem first hmem)

/-- Joining adds separators only. -/
theorem notMem_intercalate {c : Char} (hc : c ≠ separator) (h : ∀ piece ∈ pieces, c ∉ piece) :
    c ∉ [separator].intercalate pieces := by
  induction pieces with
  | nil => simp
  | cons piece pieces ih =>
    obtain ⟨hpiece, hpieces⟩ := List.forall_mem_cons.mp h
    cases pieces with
    | nil => simpa using hpiece
    | cons next pieces =>
      rw [List.intercalate_cons_cons]
      simpa [hpiece, hc] using ih hpieces

theorem intercalate_append {more : List (List Char)} (h : pieces ≠ []) (hmore : more ≠ []) :
    [separator].intercalate (pieces ++ more) =
      [separator].intercalate pieces ++ separator :: [separator].intercalate more := by
  induction pieces with
  | nil => exact absurd rfl h
  | cons piece pieces ih =>
    cases pieces with
    | nil =>
      obtain ⟨next, more, rfl⟩ := List.exists_cons_of_ne_nil hmore
      simp [List.intercalate_cons_cons]
    | cons next pieces =>
      rw [List.cons_append, List.cons_append, List.intercalate_cons_cons, ← List.cons_append,
        ih (by simp), List.intercalate_cons_cons]
      simp

/-- A joined text has room for each piece. -/
theorem length_le_intercalate (h : piece ∈ pieces) :
    piece.length ≤ ([separator].intercalate pieces).length := by
  obtain ⟨front, rest, rfl⟩ := List.append_of_mem h
  have hrest : piece.length ≤ ([separator].intercalate (piece :: rest)).length := by
    cases rest with
    | nil => simp
    | cons next rest =>
      rw [List.intercalate_cons_cons]
      simp only [List.length_append]
      omega
  by_cases hfront : front = []
  · simpa [hfront] using hrest
  · rw [intercalate_append hfront (by simp), List.length_append, List.length_cons]
    omega

end Jack.Text
