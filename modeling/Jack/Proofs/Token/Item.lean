import Jack.Proofs.Token.Layout
import Jack.Proofs.Token.Line

/-!
# What an answer is about

Every answer of scanning is about a piece of the text, its item: a token about its spelling, a
problem about the comment, the string or the word in which it lies. Before the item stands a gap,
and the cursor goes on right after the item (`Cursor.exists_item`). So the line of an answer is
found by counting the line feeds before its item, whatever problems were met before
(`lines_are_exact`).

1. `Item` says for every sort of answer what its item is and what may follow it.
2. `Cursor.after` is the cursor after a number of answers. A cursor that was reached knows its line:
   `Cursor.Reached` is kept by each answer (`Reached.next`) and so by any number of them.
-/

namespace Jack

open Text

/-! ## Items -/

/-- Why the reading of a string stops before the given text. -/
inductive StringFault : Fault → List Char → Prop
  | unterminated : StringFault .unterminatedString []
  | lineBreak {c : Char} {rest : List Char} (hc : isLineBreak c = true) :
      StringFault .lineBreakInString (c :: rest)
  | unsupported {c : Char} {rest : List Char} (hc : 128 ≤ c.toNat) :
      StringFault (.unsupportedCharacter c) (c :: rest)

/-- The fault finds fault with the word. -/
def WordFault (word : String) (fault : Fault) : Prop :=
  fault = .malformedInteger word ∨ fault = .integerTooLarge word ∨ fault = .unrecognizedWord word

/-- The item of an answer, and the text after it. Nothing is left of the text at its end and after a
comment that is never closed. The item of a problem in a string starts with the opening quote and
ends before the character that may not stand there. -/
inductive Item : Scanned → List Char → List Char → Prop
  | token {k : TokenKind} {line : Nat} {rest : List Char} (hk : k.WellFormed)
      (hends : k.EndsBefore rest) : Item (.ok ⟨k, line⟩) k.spelling rest
  | eof {line : Nat} : Item (.ok ⟨.eof, line⟩) [] []
  | comment {line : Nat} {text : List Char} (htext : ¬ ['*', '/'] <:+: text) :
      Item (.error ⟨line, .unterminatedComment⟩) ('/' :: '*' :: text) []
  | string {line : Nat} {fault : Fault} {text rest : List Char}
      (htext : text.all Cursor.isStringChar = true) (hfault : StringFault fault rest) :
      Item (.error ⟨line, fault⟩) ('"' :: text) rest
  | word {line : Nat} {fault : Fault} {text rest : List Char} (hne : text ≠ [])
      (htext : ∀ c ∈ text, Cursor.isDelimiter c = false)
      (hends : ∀ c ∈ rest.head?, Cursor.isDelimiter c = true)
      (hfault : WordFault (String.ofList text) fault) : Item (.error ⟨line, fault⟩) text rest

/-- Only the end of the input is about nothing. -/
theorem Item.ne_nil {answer : Scanned} {text rest : List Char} (h : Item answer text rest)
    (hend : Cursor.isEnd answer = false) : text ≠ [] := by
  cases h with
  | @token k line rest hk hends =>
    cases k with
    | keyword w => cases w <;> decide
    | symbol s => simp [TokenKind.spelling_symbol]
    | integer value digits => exact hk.1
    | string characters => simp [TokenKind.spelling]
    | identifier name => exact hk.2.1
    | eof => exact hk.elim
  | eof => cases hend
  | comment => simp
  | string => simp
  | word hne => exact hne

theorem Item.eq_spelling {t : Token} {text rest : List Char} (h : Item (.ok t) text rest) :
    text = t.kind.spelling := by
  cases h with
  | token => rfl
  | eof => rfl

namespace Cursor

/-- Read from the given line on, the text is answered as given. The answer is about a first part of
the text and bears the line on which that part starts; the cursor goes on after it. -/
structure Yields (cs : List Char) (line : Nat) (result : Scanned × Cursor) (text : List Char) :
    Prop where
  split : cs = text ++ result.2.rest
  item : Item result.1 text result.2.rest
  start : answerLine result.1 = line
  stop : result.2.line = line + text.count '\n'

/-! ## Reading an item -/

/-- A token is about its spelling. -/
theorem yields_of_token {cs : List Char} {line : Nat} {token : Token} {after : Cursor}
    (hk : token.kind.WellFormed) (h : cs = token.kind.spelling ++ after.rest ∧
      token.kind.EndsBefore after.rest ∧ token.line = line ∧ after.line = line) :
    Yields cs line (.ok token, after) token.kind.spelling := by
  obtain ⟨hsplit, hends, hline, hafter⟩ := h
  exact ⟨hsplit, .token hk hends, hline, by rw [hk.count_spelling, hafter, Nat.add_zero]⟩

theorem yields_string (cs : List Char) (line : Nat) :
    ∃ text, Yields ('"' :: cs) line (string cs line) text := by
  have hsplit := List.takeWhile_append_dropWhile (p := isStringChar) (l := cs)
  have hall : (cs.takeWhile isStringChar).all isStringChar = true := List.all_takeWhile
  have hcount : ('"' :: cs.takeWhile isStringChar).count '\n' = 0 := by
    rw [List.count_eq_zero]
    rintro (_ | ⟨_, hmem⟩)
    exact absurd (List.all_eq_true.mp hall _ hmem) (by decide)
  cases hresult : string cs line with
  | mk answer after =>
  cases answer with
  | ok token =>
    exact ⟨_, yields_of_token (wellFormed_of_string (congrArg Prod.fst hresult))
      (spelling_of_string hresult)⟩
  | error e =>
    -- the characters before the one that may not stand there are the item
    have hitem : ∀ {fault rest}, cs.dropWhile isStringChar = rest → StringFault fault rest →
        Yields ('"' :: cs) line (.error ⟨line, fault⟩, ⟨rest, line⟩)
          ('"' :: cs.takeWhile isStringChar) := by
      rintro fault rest rfl hfault
      exact ⟨by simp [hsplit], .string hall hfault, rfl, by rw [hcount, Nat.add_zero]⟩
    unfold string at hresult
    split at hresult
    · rename_i hnil
      cases hresult
      exact ⟨_, hitem hnil .unterminated⟩
    · rename_i c rest hcons
      have hc : isStringChar c = false := by
        have hhead := List.head?_dropWhile_not isStringChar cs
        rw [hcons] at hhead
        simpa using hhead
      split_ifs at hresult with hquote hbreak
      · cases hresult
      · cases hresult
        exact ⟨_, hitem hcons (.lineBreak hbreak)⟩
      · cases hresult
        refine ⟨_, hitem hcons (.unsupported ?_)⟩
        simpa [isStringChar, hquote, hbreak] using hc

/-- A word that stands for no token. -/
theorem wordFault_of_wordKind {word : List Char} {fault : Fault}
    (h : wordKind word = .error fault) : WordFault (String.ofList word) fault := by
  unfold wordKind at h
  cases hk : Keyword.ofText? (String.ofList word) with
  | some k => simp [hk] at h
  | none =>
    simp only [hk] at h
    unfold WordFault
    split_ifs at h <;> cases h <;> simp

theorem yields_word {c : Char} (hc : isDelimiter c = false) (cs : List Char) (line : Nat) :
    ∃ text, Yields (c :: cs) line (word c cs line) text := by
  have hsplit := List.takeWhile_append_dropWhile (p := fun d => !isDelimiter d) (l := cs)
  cases hresult : word c cs line with
  | mk answer after =>
  cases hword : wordKind (c :: cs.takeWhile fun d => !isDelimiter d) with
  | ok kind =>
    have hkind := wellFormed_of_wordKind (List.cons_ne_nil _ _) hword
    have hspelling := hresult
    simp only [word, hword] at hresult
    cases hresult
    exact ⟨_, yields_of_token hkind (spelling_of_word hspelling)⟩
  | error fault =>
    simp only [word, hword] at hresult
    cases hresult
    have hinner : ∀ d ∈ c :: cs.takeWhile fun d => !isDelimiter d, isDelimiter d = false := by
      rintro d (_ | ⟨_, hd⟩)
      · exact hc
      · simpa using List.all_eq_true.mp List.all_takeWhile _ hd
    have houter : ∀ d ∈ (cs.dropWhile fun d => !isDelimiter d).head?, isDelimiter d = true := by
      intro d hd
      have hhead := List.head?_dropWhile_not (fun d => !isDelimiter d) cs
      rw [hd] at hhead
      simpa using hhead
    have hfault := wordFault_of_wordKind hword
    refine ⟨_, ?_, .word (List.cons_ne_nil _ _) hinner houter hfault, rfl, ?_⟩
    · rw [List.cons_append, hsplit]
    · rw [List.count_eq_zero.mpr, Nat.add_zero]
      intro hmem
      cases hinner _ hmem

/-- **Items.** An answer is about the text after a gap, and the gap counts into its line. -/
theorem exists_item (cursor : Cursor) : ∃ gap text item, cursor.rest = gap ++ text ∧
    GapBefore text gap ∧ Yields text (cursor.line + gap.count '\n') cursor.next item := by
  have hlast := (line_skipGap .between cursor.rest cursor.line).2
  unfold next
  split
  · rename_i opened after hskip
    have hopened : (skipGap .between cursor.rest cursor.line).1 = some opened := by rw [hskip]
    have hrest := rest_skipGap_of_unclosed hopened
    obtain ⟨gap, text, hsplit, htext, hgap, rfl⟩ := exists_gap_of_unclosed hopened
    obtain ⟨rest, line⟩ := after
    rw [hskip] at hlast hrest
    obtain rfl : rest = [] := hrest
    refine ⟨gap, _, '/' :: '*' :: text, hsplit, hgap, (List.append_nil _).symm, .comment htext, rfl,
      ?_⟩
    simp only [lastLine, List.count_nil, hsplit, List.count_append] at hlast
    rw [Nat.add_assoc]
    exact hlast
  · rename_i line hskip
    obtain ⟨gap, hsplit, hgap, rfl⟩ := exists_gap_of_skipGap hskip
    exact ⟨gap, [], [], hsplit, hgap, rfl, .eof, rfl, rfl⟩
  · rename_i c cs line hskip
    obtain ⟨gap, hsplit, hgap, rfl⟩ := exists_gap_of_skipGap hskip
    obtain ⟨hblank, hslash⟩ := solid_of_skipGap hskip c cs rfl
    have hread : ∀ {result}, (∃ item, Yields (c :: cs) (cursor.line + gap.count '\n') result item) →
        ∃ gap text item, cursor.rest = gap ++ text ∧ GapBefore text gap ∧
          Yields text (cursor.line + gap.count '\n') result item := by
      rintro result ⟨item, hitem⟩
      exact ⟨gap, c :: cs, item, hsplit, hgap, hitem⟩
    by_cases hquote : c = '"'
    · rw [if_pos hquote]
      subst hquote
      exact hread (yields_string cs _)
    · rw [if_neg hquote]
      cases hs : Symbol.ofChar? c with
      | some s =>
        obtain rfl := Symbol.char_of_ofChar? hs
        refine hread ⟨_, yields_of_token (TokenKind.wellFormed_symbol s) ⟨?_, ?_, rfl, rfl⟩⟩
        · rw [TokenKind.spelling_symbol]
          rfl
        · cases s with
          | slash => exact hslash rfl
          | _ => trivial
      | none =>
        refine hread (yields_word ?_ cs _)
        simp [isDelimiter, hblank, hquote, hs]

/-! ## Any number of answers -/

/-- The cursor after a number of answers. -/
def after (cursor : Cursor) : Nat → Cursor
  | 0 => cursor
  | n + 1 => (cursor.after n).next.2

/-- The answer with the given number, counted from 0. -/
def answerAt (cursor : Cursor) (n : Nat) : Scanned := (cursor.after n).next.1

/-- In the given source the text has been read, and the cursor stands after it. -/
structure Reached (source : String) (read : List Char) (cursor : Cursor) : Prop where
  split : source.toList = read ++ cursor.rest
  line : cursor.line = 1 + read.count '\n'

variable {source : String} {cursor : Cursor}

theorem reached_start : Reached source [] (start source) := ⟨rfl, rfl⟩

/-- An answer leads past a gap and an item, and its line is the one on which the item starts. -/
theorem Reached.next {read : List Char} (h : Reached source read cursor) : ∃ gap item,
    cursor.rest = gap ++ (item ++ cursor.next.2.rest) ∧
    GapBefore (item ++ cursor.next.2.rest) gap ∧
    Item cursor.next.1 item cursor.next.2.rest ∧
    answerLine cursor.next.1 = 1 + (read ++ gap).count '\n' ∧
    Reached source (read ++ (gap ++ item)) cursor.next.2 := by
  obtain ⟨gap, text, item, hrest, hgap, hyields⟩ := exists_item cursor
  rw [hyields.split] at hrest hgap
  have hstart : cursor.line + gap.count '\n' = 1 + (read ++ gap).count '\n' := by
    rw [h.line, List.count_append, Nat.add_assoc]
  refine ⟨gap, item, hrest, hgap, hyields.item, hyields.start.trans hstart, ?_, ?_⟩
  · rw [h.split, hrest, List.append_assoc, List.append_assoc]
  · rw [hyields.stop, hstart]
    simp only [List.count_append]
    omega

theorem exists_reached (source : String) (n : Nat) :
    ∃ read, Reached source read ((start source).after n) := by
  induction n with
  | zero => exact ⟨[], reached_start⟩
  | succ n ih =>
    obtain ⟨read, hread⟩ := ih
    obtain ⟨gap, item, -, -, -, -, hnext⟩ := hread.next
    exact ⟨_, hnext⟩

/-- An answer and any later one are on lines in this order. -/
theorem line_answerAt_le (cursor : Cursor) (n k : Nat) :
    answerLine (cursor.answerAt n) ≤ answerLine (cursor.answerAt (n + k)) := by
  -- the cursor stands between two answers that follow each other
  have hafter : ∀ k, answerLine (cursor.answerAt n) ≤ (cursor.after (n + k + 1)).line := by
    intro k
    induction k with
    | zero => exact (step_next (cursor.after n)).stop
    | succ k ih =>
      have hstep := step_next (cursor.after (n + k + 1))
      exact ih.trans (hstep.start.trans hstep.stop)
  cases k with
  | zero => exact le_rfl
  | succ k => exact (hafter k).trans (step_next _).start

end Cursor

/-- **Lines.** Wherever in a text the scan has come to, also after problems, its answer is about an
item that follows what was read before and a gap, and bears the line on which that item starts: one
more than the number of line feeds before it. So no answer is on a line before that of an earlier
one. -/
theorem lines_are_exact (source : String) (n : Nat) :
    (∃ read gap item,
      source.toList = read ++ ((Cursor.start source).after n).rest ∧
      ((Cursor.start source).after n).rest =
        gap ++ (item ++ ((Cursor.start source).after (n + 1)).rest) ∧
      GapBefore (item ++ ((Cursor.start source).after (n + 1)).rest) gap ∧
      Item ((Cursor.start source).answerAt n) item ((Cursor.start source).after (n + 1)).rest ∧
      answerLine ((Cursor.start source).answerAt n) = 1 + (read ++ gap).count '\n') ∧
    ∀ k, answerLine ((Cursor.start source).answerAt n) ≤
      answerLine ((Cursor.start source).answerAt (n + k)) := by
  obtain ⟨read, hread⟩ := Cursor.exists_reached source n
  obtain ⟨gap, item, hrest, hgap, hitem, hline, -⟩ := hread.next
  exact ⟨⟨read, gap, item, hread.split, hrest, hgap, hitem, hline⟩, Cursor.line_answerAt_le _ n⟩

end Jack
