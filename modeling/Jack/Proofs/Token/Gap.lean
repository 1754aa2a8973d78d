import Mathlib.Data.List.Infix
import Jack.Token.Cursor

/-!
# Gaps between tokens

`GapBefore rest gap` is the grammar of gaps: blanks, comments that run to the end of their line, and
comments that are closed. Whether a comment that runs to the end of its line is complete depends on
what stands after it, so the text `rest` after the gap is part of the notion.

1. Each kind of comment is skipped as a whole (`skipGap_lineComment`, `skipGap_blockComment`), so a
   gap is skipped up to the text after it (`GapBefore.skipGap_append`).
2. Whatever is skipped without an open comment is a gap (`exists_gap_of_skipGap`), and a token or
   the end of the text follows (`solid_of_skipGap`).
3. A comment that is never closed is opened after a gap (`exists_gap_of_unclosed`).
-/

namespace Jack

open Text

/-- A row of blanks, of comments `// ...` up to the next line break or the end, and of comments
`/* ... */` that end with the first closing mark, before the given text. -/
inductive GapBefore (rest : List Char) : List Char → Prop
  | nil : GapBefore rest []
  | blank {c : Char} {gap : List Char} (hc : isBlank c = true) (h : GapBefore rest gap) :
      GapBefore rest (c :: gap)
  | lineComment {text gap : List Char} (htext : ∀ c ∈ text, isLineBreak c = false)
      (hend : ∀ c ∈ (gap ++ rest).head?, isLineBreak c = true) (h : GapBefore rest gap) :
      GapBefore rest ('/' :: '/' :: (text ++ gap))
  | blockComment {text gap : List Char} (htext : ¬ ['*', '/'] <:+: text)
      (h : GapBefore rest gap) : GapBefore rest ('/' :: '*' :: (text ++ '*' :: '/' :: gap))

/-- Neither a blank nor a comment starts the text. -/
def Solid (text : List Char) : Prop :=
  ∀ c cs, text = c :: cs → isBlank c = false ∧ (c = '/' → ∀ d ∈ cs.head?, d ≠ '/' ∧ d ≠ '*')

namespace Cursor

/-! ## Skipping a gap -/

theorem lineAfter_add_count (c : Char) (cs : List Char) (line : Nat) :
    lineAfter c line + cs.count '\n' = line + (c :: cs).count '\n' := by
  unfold lineAfter
  by_cases h : c = '\n'
  · rw [if_pos h, h, List.count_cons_self]
    omega
  · rw [if_neg h, List.count_cons_of_ne h]

theorem lineAfter_of_isLineBreak_eq_false {c : Char} (h : isLineBreak c = false) (line : Nat) :
    lineAfter c line = line := by
  unfold lineAfter
  rw [if_neg]
  rintro rfl
  cases h

theorem skipGap_of_solid {text : List Char} (h : Solid text) (line : Nat) :
    skipGap .between text line = (none, ⟨text, line⟩) := by
  cases text with
  | nil => rfl
  | cons c cs =>
    obtain ⟨hblank, hslash⟩ := h c cs rfl
    unfold skipGap
    split <;> simp_all

theorem skipGap_blank {c : Char} (hc : isBlank c = true) (cs : List Char) (line : Nat) :
    skipGap .between (c :: cs) line = skipGap .between cs (lineAfter c line) := by
  have hslash : c ≠ '/' := by
    rintro rfl
    exact absurd hc (by decide)
  conv_lhs => unfold skipGap
  split <;> simp_all

/-- A comment that ends with its line is skipped. -/
theorem skipGap_lineComment {text rest : List Char} (htext : ∀ c ∈ text, isLineBreak c = false)
    (hend : ∀ c ∈ rest.head?, isLineBreak c = true) (line : Nat) :
    skipGap .lineComment (text ++ rest) line = skipGap .between rest line := by
  induction text with
  | nil =>
    cases rest with
    | nil => rfl
    | cons c cs =>
      have hc : isLineBreak c = true := hend c rfl
      rw [List.nil_append, skipGap_blank (isBlank_of_isLineBreak hc)]
      conv_lhs => unfold skipGap
      rw [if_pos hc]
  | cons c text ih =>
    have hc : isLineBreak c = false := htext c (List.mem_cons_self ..)
    rw [List.cons_append]
    conv_lhs => unfold skipGap
    rw [hc, if_neg Bool.false_ne_true, lineAfter_of_isLineBreak_eq_false hc]
    exact ih fun d hd => htext d (List.mem_cons_of_mem _ hd)

theorem skipGap_blockComment_cons {c : Char} {cs : List Char}
    (h : ¬ ∃ cs', c :: cs = '*' :: '/' :: cs') (opened line : Nat) :
    skipGap (.blockComment opened) (c :: cs) line =
      skipGap (.blockComment opened) cs (lineAfter c line) := by
  conv_lhs => unfold skipGap
  split <;> simp_all

/-- A comment with a closing mark is skipped up to the first such mark. -/
theorem skipGap_blockComment {text : List Char} (htext : ¬ ['*', '/'] <:+: text)
    (rest : List Char) (opened line : Nat) :
    skipGap (.blockComment opened) (text ++ '*' :: '/' :: rest) line =
      skipGap .between rest (line + text.count '\n') := by
  induction text generalizing line with
  | nil =>
    conv_lhs => unfold skipGap
    rfl
  | cons c text ih =>
    rw [List.infix_cons_iff, not_or] at htext
    have hmark : ¬ ∃ cs', c :: (text ++ '*' :: '/' :: rest) = '*' :: '/' :: cs' := by
      rintro ⟨cs', heq⟩
      obtain ⟨rfl, htail⟩ := List.cons.inj heq
      cases text with
      | nil => exact absurd (List.cons.inj htail).1 (by decide)
      | cons d text =>
        obtain rfl := (List.cons.inj htail).1
        exact htext.1 ⟨text, rfl⟩
    rw [List.cons_append, skipGap_blockComment_cons hmark, ih htext.2, lineAfter_add_count]

end Cursor

/-- A gap is skipped, and the lines in it are counted. -/
theorem GapBefore.skipGap_append {rest gap : List Char} (h : GapBefore rest gap) (line : Nat) :
    Cursor.skipGap .between (gap ++ rest) line =
      Cursor.skipGap .between rest (line + gap.count '\n') := by
  induction h generalizing line with
  | nil => rfl
  | @blank c gap hc h ih =>
    rw [List.cons_append, Cursor.skipGap_blank hc, ih, Cursor.lineAfter_add_count]
  | @lineComment text gap htext hend h ih =>
    have hcount : text.count '\n' = 0 := by
      rw [List.count_eq_zero]
      intro hmem
      cases htext _ hmem
    rw [List.cons_append, List.cons_append, List.append_assoc]
    conv_lhs => unfold Cursor.skipGap
    simp only
    rw [Cursor.skipGap_lineComment htext hend, ih]
    simp [hcount]
  | @blockComment text gap htext h ih =>
    rw [List.cons_append, List.cons_append, List.append_assoc]
    conv_lhs => unfold Cursor.skipGap
    simp only [List.cons_append]
    rw [Cursor.skipGap_blockComment htext, ih]
    simp [Nat.add_assoc]

/-! ## What was skipped -/

namespace Cursor

/-- What stands before `rest` when the cursor is in the given part of a gap. -/
def SkippedBefore (rest : List Char) : Gap → List Char → Prop
  | .between, skipped => GapBefore rest skipped
  | .lineComment, skipped => ∃ text gap, skipped = text ++ gap ∧ GapBefore rest gap ∧
      (∀ c ∈ text, isLineBreak c = false) ∧ ∀ c ∈ (gap ++ rest).head?, isLineBreak c = true
  | .blockComment _, skipped => ∃ text gap, skipped = text ++ '*' :: '/' :: gap ∧
      GapBefore rest gap ∧ ¬ ['*', '/'] <:+: text

/-- A closing mark that is not in a text does not come in with a character before it, unless it
starts with this character. -/
theorem not_closed_cons {c : Char} {text : List Char} (htext : ¬ ['*', '/'] <:+: text)
    (hmark : ∀ cs, c = '*' → text = '/' :: cs → False) : ¬ ['*', '/'] <:+: c :: text := by
  rw [List.infix_cons_iff, not_or]
  refine ⟨?_, htext⟩
  rintro ⟨cs, heq⟩
  obtain ⟨rfl, rfl⟩ := List.cons.inj heq
  exact hmark _ rfl rfl

section Skipped

variable {rest skipped : List Char} {opened : Nat}

theorem SkippedBefore.close (h : SkippedBefore rest .between skipped) :
    SkippedBefore rest (.blockComment opened) ('*' :: '/' :: skipped) :=
  ⟨[], skipped, rfl, h, by simp⟩

/-- A character of a comment, unless a closing mark starts with it. -/
theorem SkippedBefore.inBlock {c : Char} (h : SkippedBefore rest (.blockComment opened) skipped)
    (hmark : ∀ cs, c = '*' → skipped ++ rest = '/' :: cs → False) :
    SkippedBefore rest (.blockComment opened) (c :: skipped) := by
  obtain ⟨text, gap, rfl, hgap, htext⟩ := h
  refine ⟨c :: text, gap, rfl, hgap, not_closed_cons htext ?_⟩
  rintro cs hc rfl
  exact hmark _ hc rfl

/-- A character of a comment that ends with its line, or the line break that ends it. -/
theorem SkippedBefore.inLine {c : Char}
    (h : SkippedBefore rest (if isLineBreak c then .between else .lineComment) skipped) :
    SkippedBefore rest .lineComment (c :: skipped) := by
  by_cases hc : isLineBreak c = true
  · rw [if_pos hc] at h
    exact ⟨[], c :: skipped, rfl, .blank (isBlank_of_isLineBreak hc) h, by simp, by simpa using hc⟩
  · rw [if_neg hc] at h
    obtain ⟨text, gap, rfl, hgap, htext, hend⟩ := h
    refine ⟨c :: text, gap, rfl, hgap, ?_, hend⟩
    intro d hd
    obtain rfl | hd := List.mem_cons.mp hd
    · exact Bool.eq_false_iff.mpr hc
    · exact htext d hd

theorem SkippedBefore.openLine (h : SkippedBefore rest .lineComment skipped) :
    SkippedBefore rest .between ('/' :: '/' :: skipped) := by
  obtain ⟨text, gap, rfl, hgap, htext, hend⟩ := h
  exact .lineComment htext hend hgap

theorem SkippedBefore.openBlock (h : SkippedBefore rest (.blockComment opened) skipped) :
    SkippedBefore rest .between ('/' :: '*' :: skipped) := by
  obtain ⟨text, gap, rfl, hgap, htext⟩ := h
  exact .blockComment htext hgap

end Skipped

theorem exists_skipped {gap : Gap} {cs : List Char} {line : Nat} {after : Cursor}
    (h : skipGap gap cs line = (none, after)) : ∃ skipped, cs = skipped ++ after.rest ∧
      SkippedBefore after.rest gap skipped ∧ after.line = line + skipped.count '\n' := by
  fun_induction skipGap gap cs line with
  | case1 opened line => cases h
  | case2 gap line hgap =>
    cases h
    refine ⟨[], rfl, ?_, rfl⟩
    cases gap with
    | between => exact .nil
    | lineComment => exact ⟨[], [], rfl, .nil, by simp, by simp⟩
    | blockComment opened => exact absurd rfl (hgap opened)
  | case3 opened cs line ih =>
    obtain ⟨skipped, rfl, hskipped, hline⟩ := ih h
    exact ⟨'*' :: '/' :: skipped, rfl, hskipped.close, by simpa using hline⟩
  | case4 opened c cs line hmark ih =>
    obtain ⟨skipped, rfl, hskipped, hline⟩ := ih h
    exact ⟨c :: skipped, rfl, hskipped.inBlock hmark, by rw [hline, lineAfter_add_count]⟩
  | case5 c cs line ih =>
    obtain ⟨skipped, rfl, hskipped, hline⟩ := ih h
    exact ⟨c :: skipped, rfl, hskipped.inLine, by rw [hline, lineAfter_add_count]⟩
  | case6 cs line ih =>
    obtain ⟨skipped, rfl, hskipped, hline⟩ := ih h
    exact ⟨'/' :: '/' :: skipped, rfl, hskipped.openLine, by simpa using hline⟩
  | case7 cs line ih =>
    obtain ⟨skipped, rfl, hskipped, hline⟩ := ih h
    exact ⟨'/' :: '*' :: skipped, rfl, hskipped.openBlock, by simpa using hline⟩
  | case8 c cs line _ _ hc ih =>
    obtain ⟨skipped, rfl, hskipped, hline⟩ := ih h
    exact ⟨c :: skipped, rfl, .blank hc hskipped, by rw [hline, lineAfter_add_count]⟩
  | case9 c cs line =>
    cases h
    exact ⟨[], rfl, .nil, rfl⟩

/-- A comment that is never closed is the one in which the cursor stands, or it is opened after some
text that is skipped. -/
theorem exists_unclosed {gap : Gap} {cs : List Char} {line opened : Nat}
    (h : (skipGap gap cs line).1 = some opened) :
    (gap = .blockComment opened ∧ ¬ ['*', '/'] <:+: cs) ∨
      ∃ skipped text, cs = skipped ++ '/' :: '*' :: text ∧ ¬ ['*', '/'] <:+: text ∧
        SkippedBefore ('/' :: '*' :: text) gap skipped ∧ opened = line + skipped.count '\n' := by
  fun_induction skipGap gap cs line with
  | case1 opened' line =>
    obtain rfl : opened' = opened := by simpa using h
    exact .inl ⟨rfl, by simp⟩
  | case2 | case9 => cases h
  | case3 opened' cs line ih =>
    obtain ⟨hgap, -⟩ | ⟨skipped, text, rfl, htext, hskipped, hline⟩ := ih h
    · cases hgap
    · exact .inr ⟨'*' :: '/' :: skipped, text, rfl, htext, hskipped.close, by simpa using hline⟩
  | case4 opened' c cs line hmark ih =>
    obtain ⟨hgap, hcs⟩ | ⟨skipped, text, rfl, htext, hskipped, hline⟩ := ih h
    · exact .inl ⟨hgap, not_closed_cons hcs hmark⟩
    · exact .inr ⟨c :: skipped, text, rfl, htext, hskipped.inBlock hmark,
        by rw [hline, lineAfter_add_count]⟩
  | case5 c cs line ih =>
    obtain ⟨hgap, -⟩ | ⟨skipped, text, rfl, htext, hskipped, hline⟩ := ih h
    · split at hgap <;> cases hgap
    · exact .inr ⟨c :: skipped, text, rfl, htext, hskipped.inLine,
        by rw [hline, lineAfter_add_count]⟩
  | case6 cs line ih =>
    obtain ⟨hgap, -⟩ | ⟨skipped, text, rfl, htext, hskipped, hline⟩ := ih h
    · cases hgap
    · exact .inr ⟨'/' :: '/' :: skipped, text, rfl, htext, hskipped.openLine,
        by simpa using hline⟩
  | case7 cs line ih =>
    obtain ⟨hgap, hcs⟩ | ⟨skipped, text, rfl, htext, hskipped, hline⟩ := ih h
    · cases hgap
      exact .inr ⟨[], cs, rfl, hcs, .nil, rfl⟩
    · exact .inr ⟨'/' :: '*' :: skipped, text, rfl, htext, hskipped.openBlock,
        by simpa using hline⟩
  | case8 c cs line _ _ hc ih =>
    obtain ⟨hgap, -⟩ | ⟨skipped, text, rfl, htext, hskipped, hline⟩ := ih h
    · cases hgap
    · exact .inr ⟨c :: skipped, text, rfl, htext, .blank hc hskipped,
        by rw [hline, lineAfter_add_count]⟩

/-- What is skipped before a token or the end is a gap. -/
theorem exists_gap_of_skipGap {cs : List Char} {line : Nat} {after : Cursor}
    (h : skipGap .between cs line = (none, after)) : ∃ gap, cs = gap ++ after.rest ∧
      GapBefore after.rest gap ∧ after.line = line + gap.count '\n' := exists_skipped h

/-- What is skipped before a comment that is never closed is a gap. -/
theorem exists_gap_of_unclosed {cs : List Char} {line opened : Nat}
    (h : (skipGap .between cs line).1 = some opened) : ∃ gap text,
      cs = gap ++ '/' :: '*' :: text ∧ ¬ ['*', '/'] <:+: text ∧
      GapBefore ('/' :: '*' :: text) gap ∧ opened = line + gap.count '\n' := by
  obtain ⟨hgap, -⟩ | hskipped := exists_unclosed h
  · cases hgap
  · exact hskipped

/-- After a gap stands a token or the end. -/
theorem solid_of_skipGap {gap : Gap} {cs : List Char} {line : Nat} {after : Cursor}
    (h : skipGap gap cs line = (none, after)) : Solid after.rest := by
  fun_induction skipGap gap cs line with
  | case1 opened line => cases h
  | case2 gap line hgap =>
    cases h
    intro c cs hcs
    cases hcs
  | case9 c cs line hline hblock hc =>
    cases h
    intro c' cs' heq
    obtain ⟨rfl, rfl⟩ := List.cons.inj heq
    refine ⟨Bool.eq_false_iff.mpr hc, ?_⟩
    rintro rfl d hd
    obtain ⟨cs', rfl⟩ := List.head?_eq_some_iff.mp hd
    refine ⟨?_, ?_⟩
    · rintro rfl
      exact hline _ rfl rfl
    · rintro rfl
      exact hblock _ rfl rfl
  | _ => simp_all

end Cursor

end Jack
