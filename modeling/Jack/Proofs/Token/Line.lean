import Jack.Proofs.Token.Gap
import Jack.Proofs.Token.Scans

/-!
# Lines

Line feeds are counted where they are skipped and nowhere else: strings, symbols and words hold
none. So the line of a cursor and the line feeds ahead of it always make up the same sum, and the
line of every answer lies between that of the cursor before it and that of the cursor after it
(`Cursor.step_next`). All answers of a scan are on a line of the text (`line_of_mem_scan`).
-/

namespace Jack

open Text

/-- The line that an answer of scanning is given for. -/
def answerLine : Scanned → Nat
  | .ok token => token.line
  | .error problem => problem.line

namespace Cursor

/-- The line on which the text ahead of the cursor ends. -/
def lastLine (cursor : Cursor) : Nat := cursor.line + cursor.rest.count '\n'

/-- The answer is on a line between the two cursors, and both of them end on the same line. -/
structure Steps (cursor : Cursor) (line : Nat) (after : Cursor) : Prop where
  start : cursor.line ≤ line
  stop : line ≤ after.line
  last : after.lastLine = cursor.lastLine

theorem Steps.le_lastLine {cursor after : Cursor} {line : Nat} (h : Steps cursor line after) :
    line ≤ cursor.lastLine := by
  have hstop := h.stop
  have hlast := h.last
  unfold lastLine at hlast ⊢
  omega

/-- Characters that are no line feeds are dropped without a loss of lines. -/
theorem count_dropWhile {p : Char → Bool} (hp : p '\n' = false) (cs : List Char) :
    (cs.dropWhile p).count '\n' = cs.count '\n' := by
  have hnone : (cs.takeWhile p).count '\n' = 0 := by
    rw [List.count_eq_zero]
    intro hmem
    have := List.all_eq_true.mp List.all_takeWhile _ hmem
    simp [hp] at this
  conv_rhs => rw [← List.takeWhile_append_dropWhile (p := p) (l := cs), List.count_append, hnone]
  omega

theorem lastLine_cons {c : Char} (hc : c ≠ '\n') (cs : List Char) (line : Nat) :
    lastLine ⟨c :: cs, line⟩ = lastLine ⟨cs, line⟩ := by
  simp [lastLine, hc]

/-! ## Gaps -/

theorem line_le_lineAfter (c : Char) (line : Nat) : line ≤ lineAfter c line := by
  unfold lineAfter
  split <;> omega

/-- A gap is skipped from the one line to the other. -/
theorem line_skipGap (gap : Gap) (cs : List Char) (line : Nat) :
    line ≤ (skipGap gap cs line).2.line ∧
      (skipGap gap cs line).2.lastLine = lastLine ⟨cs, line⟩ := by
  fun_induction skipGap gap cs line with
  | case1 | case2 | case9 => exact ⟨le_rfl, rfl⟩
  | case3 opened cs line ih | case6 cs line ih | case7 cs line ih =>
    refine ⟨ih.1, ?_⟩
    rw [ih.2, lastLine_cons (by decide), lastLine_cons (by decide)]
  | case4 opened c cs line _ ih | case5 c cs line ih | case8 c cs line _ _ _ ih =>
    exact ⟨(line_le_lineAfter c line).trans ih.1, ih.2.trans (lineAfter_add_count c cs line)⟩

/-- The line on which an unclosed comment was opened. -/
theorem line_of_unclosed {gap : Gap} {cs : List Char} {line opened : Nat}
    (h : (skipGap gap cs line).1 = some opened) :
    gap = .blockComment opened ∨ line ≤ opened ∧ opened ≤ (skipGap gap cs line).2.line := by
  fun_induction skipGap gap cs line with
  | case1 opened' line => exact .inl (by simpa using h)
  | case2 | case9 => cases h
  | case3 opened' cs line ih =>
    obtain hgap | hline := ih h
    · cases hgap
    · exact .inr hline
  | case4 opened' c cs line _ ih =>
    obtain hgap | hline := ih h
    · exact .inl hgap
    · exact .inr ⟨(line_le_lineAfter c line).trans hline.1, hline.2⟩
  | case5 c cs line ih =>
    obtain hgap | hline := ih h
    · split at hgap <;> cases hgap
    · exact .inr ⟨(line_le_lineAfter c line).trans hline.1, hline.2⟩
  | case6 cs line ih =>
    obtain hgap | hline := ih h
    · cases hgap
    · exact .inr hline
  | case7 cs line ih =>
    obtain hgap | hline := ih h
    · cases hgap
      exact .inr ⟨le_rfl, (line_skipGap _ _ _).1⟩
    · exact .inr hline
  | case8 c cs line _ _ _ ih =>
    obtain hgap | hline := ih h
    · cases hgap
    · exact .inr ⟨(line_le_lineAfter c line).trans hline.1, hline.2⟩

/-! ## Tokens -/

theorem step_string (cs : List Char) (line : Nat) :
    Steps ⟨cs, line⟩ (answerLine (string cs line).1) (string cs line).2 := by
  have hcount := count_dropWhile (p := isStringChar) (by decide) cs
  unfold string
  split
  · rename_i hnil
    rw [hnil] at hcount
    exact ⟨le_rfl, le_rfl, by simp [lastLine, ← hcount]⟩
  · rename_i c rest hcons
    rw [hcons] at hcount
    split
    · rename_i hquote
      subst hquote
      rw [List.count_cons_of_ne (by decide)] at hcount
      exact ⟨le_rfl, le_rfl, by simp [lastLine, hcount]⟩
    · split <;> exact ⟨le_rfl, le_rfl, by simp [lastLine, hcount]⟩

theorem step_word (c : Char) (cs : List Char) (line : Nat) :
    Steps ⟨cs, line⟩ (answerLine (word c cs line).1) (word c cs line).2 := by
  have hcount := count_dropWhile (p := fun d => !isDelimiter d) (by decide) cs
  unfold word
  split <;> exact ⟨le_rfl, le_rfl, by simp [lastLine, hcount]⟩

/-- **Lines.** A step answers on a line between that of the cursor before and that of the cursor
after it, and no line is lost on the way. -/
theorem step_next (cursor : Cursor) :
    Steps cursor (answerLine cursor.next.1) cursor.next.2 := by
  obtain ⟨hline, hlast⟩ := line_skipGap .between cursor.rest cursor.line
  unfold next
  split
  · rename_i opened after hgap
    have hunclosed := @line_of_unclosed .between cursor.rest cursor.line opened
      (congrArg Prod.fst hgap)
    rw [hgap] at hlast hunclosed
    obtain hblock | ⟨hstart, hstop⟩ := hunclosed
    · cases hblock
    · exact ⟨hstart, hstop, hlast⟩
  · rename_i line hgap
    rw [hgap] at hline hlast
    exact ⟨hline, le_rfl, hlast⟩
  · rename_i c cs line hgap
    have hsolid := solid_of_skipGap hgap c cs rfl
    have hc : c ≠ '\n' := by
      rintro rfl
      exact absurd hsolid.1 (by decide)
    rw [hgap] at hline hlast
    have hrest : ∀ {found after}, Steps ⟨cs, line⟩ found after → Steps cursor found after :=
      fun h => ⟨hline.trans h.start, h.stop, by rw [h.last, ← hlast, lastLine_cons hc]⟩
    split
    · exact hrest (step_string cs line)
    · split
      · exact hrest ⟨le_rfl, le_rfl, rfl⟩
      · exact hrest (step_word c cs line)

/-- All answers are on a line of the text ahead. -/
theorem line_of_mem_answers {cursor : Cursor} {answer : Scanned} (h : answer ∈ cursor.answers) :
    cursor.line ≤ answerLine answer ∧ answerLine answer ≤ cursor.lastLine := by
  induction hn : cursor.rest.length using Nat.strongRecOn generalizing cursor with
  | ind n ih =>
    have hstep := step_next cursor
    rw [answers_eq] at h
    obtain rfl | hlater := List.mem_cons.mp h
    · exact ⟨hstep.start, hstep.le_lastLine⟩
    · cases hend : isEnd cursor.next.1 with
      | true => simp [hend] at hlater
      | false =>
        simp only [hend, Bool.false_eq_true, if_false] at hlater
        obtain ⟨hstart, hlast⟩ := ih _ (hn ▸ length_rest_next_lt cursor hend) hlater rfl
        exact ⟨hstep.start.trans (hstep.stop.trans hstart), hstep.last ▸ hlast⟩

end Cursor

/-- All answers of a scan are on a line of the text. -/
theorem line_of_mem_scan {source : String} {answer : Scanned} (h : answer ∈ scan source) :
    1 ≤ answerLine answer ∧ answerLine answer ≤ 1 + source.toList.count '\n' :=
  @Cursor.line_of_mem_answers (.start source) answer h

end Jack
