import Jack.Proofs.Token.Item

/-!
# Scanning call by call

The scan of a text as a row of calls, each of which gives one answer, also after problems. Every
call that does not answer with the end of the input takes the cursor further, so the end is reached
after at most as many calls as the text has characters, and from then on nothing changes
(`calls_make_progress`).

1. `Cursor.firstAnswers` and `Cursor.answers` list what the calls answer (`firstAnswers_eq`,
   `exists_answers_eq`).
2. A `TokenIterator` makes the calls on demand and gives out nothing more after the end of the input
   or a problem. What it gives out is listed by `upToProblem` (`item_eq_getElem?`).
-/

namespace Jack

/-! ## Answers in a row -/

namespace Cursor

/-- The number of bytes of the source before the cursor. -/
def offset (source : String) (cursor : Cursor) : Nat :=
  source.utf8ByteSize - (String.ofList cursor.rest).utf8ByteSize

theorem after_next (cursor : Cursor) (n : Nat) : cursor.next.2.after n = cursor.after (n + 1) := by
  induction n with
  | zero => rfl
  | succ n ih => exact congrArg (fun c => c.next.2) ih

theorem answerAt_next (cursor : Cursor) (n : Nat) :
    cursor.next.2.answerAt n = cursor.answerAt (n + 1) := by
  rw [answerAt, after_next, answerAt]

theorem firstAnswers_succ (n : Nat) (cursor : Cursor) :
    firstAnswers (n + 1) cursor = cursor.next.1 :: firstAnswers n cursor.next.2 := rfl

theorem firstAnswers_eq (n : Nat) (cursor : Cursor) :
    firstAnswers n cursor = (List.range n).map cursor.answerAt := by
  induction n generalizing cursor with
  | zero => rfl
  | succ n ih =>
    rw [firstAnswers_succ, ih, List.range_succ_eq_map, List.map_cons, List.map_map]
    exact congrArg _ (List.map_congr_left fun i _ => answerAt_next cursor i)

/-- The answers from one of them on are those of the cursor that gives it. -/
theorem drop_answers {cursor : Cursor} {n : Nat} (h : n < cursor.answers.length) :
    cursor.answers.drop n = (cursor.after n).answers := by
  induction n generalizing cursor with
  | zero => rfl
  | succ n ih =>
    rw [answers_eq] at h ⊢
    rw [List.drop_succ_cons]
    split at h
    · simp at h
    · rename_i hend
      rw [if_neg hend, ih (Nat.lt_of_succ_lt_succ h), after_next]

/-- The bytes before a cursor are those of the text that has been read. -/
theorem Reached.offset_eq {source : String} {read : List Char} {cursor : Cursor}
    (h : Reached source read cursor) :
    cursor.offset source = (String.ofList read).utf8ByteSize := by
  have hsource : source = String.ofList read ++ String.ofList cursor.rest := by
    rw [← String.ofList_append, ← h.split, String.ofList_toList]
  rw [offset, hsource, String.utf8ByteSize_append, Nat.add_sub_cancel]

/-- Every answer but the end of the input takes the cursor further. -/
theorem Reached.offset_lt {source : String} {read : List Char} {cursor : Cursor}
    (h : Reached source read cursor) (hend : isEnd cursor.next.1 = false) :
    cursor.offset source < cursor.next.2.offset source := by
  obtain ⟨gap, item, -, -, hitem, -, hnext⟩ := h.next
  have hpos : 0 < (String.ofList item).utf8ByteSize := by
    rw [Nat.pos_iff_ne_zero, Ne, String.utf8ByteSize_eq_zero_iff, String.ofList_eq_empty_iff]
    exact hitem.ne_nil hend
  rw [h.offset_eq, hnext.offset_eq, String.ofList_append, String.ofList_append,
    String.utf8ByteSize_append, String.utf8ByteSize_append]
  omega

/-! ## The end of the input -/

/-- The end of the input is found on the last line, and nothing is left. -/
theorem next_of_isEnd {cursor : Cursor} (h : isEnd cursor.next.1 = true) :
    cursor.next = (.ok ⟨.eof, cursor.lastLine⟩, ⟨[], cursor.lastLine⟩) := by
  obtain ⟨line, hline⟩ := isEnd_eq_true_iff.mp h
  have hnext : cursor.next = (.ok ⟨.eof, line⟩, cursor.next.2) := Prod.ext hline rfl
  exact next_end (gap_of_next_eof hnext) cursor.line

theorem lastLine_after (cursor : Cursor) (n : Nat) :
    (cursor.after n).lastLine = cursor.lastLine := by
  induction n with
  | zero => rfl
  | succ n ih => exact (step_next (cursor.after n)).last.trans ih

/-- From the first end of the input on, every answer is the same. -/
theorem answerAt_of_isEnd {cursor : Cursor} {m : Nat} (h : isEnd (cursor.answerAt m) = true)
    (n : Nat) : cursor.answerAt (m + n) = .ok ⟨.eof, cursor.lastLine⟩ := by
  have hlast : ∀ n, isEnd (cursor.answerAt n) = true →
      (cursor.after n).next = (.ok ⟨.eof, cursor.lastLine⟩, ⟨[], cursor.lastLine⟩) := by
    intro n hn
    rw [next_of_isEnd hn, lastLine_after]
  suffices hend : isEnd (cursor.answerAt (m + n)) = true from
    congrArg Prod.fst (hlast _ hend)
  induction n with
  | zero => exact h
  | succ n ih =>
    have hafter : cursor.after (m + n + 1) = ⟨[], cursor.lastLine⟩ :=
      congrArg Prod.snd (hlast _ ih)
    rw [← Nat.add_assoc, answerAt, hafter]
    rfl

/-- Calls up to the first answer at which they stop. If they stop at the end of the input at the
latest, there are no more calls before that than there are characters to be read. -/
theorem exists_first {stop : Scanned → Bool} {list : Cursor → List Scanned}
    (hstop : ∀ answer, isEnd answer = true → stop answer = true)
    (hlist : ∀ cursor, list cursor =
      cursor.next.1 :: if stop cursor.next.1 then [] else list cursor.next.2) (cursor : Cursor) :
    ∃ m ≤ cursor.rest.length, (∀ n < m, stop (cursor.answerAt n) = false) ∧
      stop (cursor.answerAt m) = true ∧ list cursor = firstAnswers (m + 1) cursor := by
  induction hlength : cursor.rest.length using Nat.strongRecOn generalizing cursor with
  | ind length ih =>
    cases hnext : stop cursor.next.1 with
    | true =>
      refine ⟨0, Nat.zero_le _, by simp, hnext, ?_⟩
      rw [hlist, hnext, if_pos rfl]
      rfl
    | false =>
      have hend : isEnd cursor.next.1 = false := by
        by_contra hend
        rw [hstop _ (Bool.eq_true_of_not_eq_false hend)] at hnext
        cases hnext
      have hlt := length_rest_next_lt cursor hend
      obtain ⟨m, hm, hbefore, hat, hrest⟩ := ih _ (hlength ▸ hlt) cursor.next.2 rfl
      refine ⟨m + 1, by omega, ?_, answerAt_next cursor m ▸ hat, ?_⟩
      · intro n hn
        cases n with
        | zero => exact hnext
        | succ n => exact answerAt_next cursor n ▸ hbefore n (Nat.lt_of_succ_lt_succ hn)
      · rw [hlist, hnext, if_neg Bool.false_ne_true, hrest, firstAnswers_succ (m + 1)]

/-- The answers end with the first end of the input. -/
theorem exists_answers_eq (cursor : Cursor) : ∃ m ≤ cursor.rest.length,
    (∀ n < m, isEnd (cursor.answerAt n) = false) ∧ isEnd (cursor.answerAt m) = true ∧
    cursor.answers = firstAnswers (m + 1) cursor :=
  exists_first (fun _ h => h) answers_eq cursor

theorem answerAt_of_getElem? {cursor : Cursor} {n : Nat} {answer : Scanned}
    (h : cursor.answers[n]? = some answer) : cursor.answerAt n = answer := by
  obtain ⟨m, -, -, -, hanswers⟩ := exists_answers_eq cursor
  rw [hanswers, firstAnswers_eq, List.getElem?_map] at h
  obtain ⟨k, hk, rfl⟩ := Option.map_eq_some_iff.mp h
  obtain ⟨hn, hk⟩ := List.getElem?_eq_some_iff.mp hk
  rw [← hk, List.getElem_range]

/-- The last of the answers is the end of the input, on the last line. -/
theorem exists_answers_before (cursor : Cursor) : ∃ before,
    cursor.answers = before ++ [.ok ⟨.eof, cursor.lastLine⟩] ∧
      ∀ answer ∈ before, isEnd answer = false := by
  obtain ⟨m, -, hbefore, hend, hanswers⟩ := exists_answers_eq cursor
  refine ⟨(List.range m).map cursor.answerAt, ?_, ?_⟩
  · rw [hanswers, firstAnswers_eq, List.range_succ, List.map_append, List.map_singleton]
    exact congrArg (_ ++ [·]) (answerAt_of_isEnd hend 0)
  · intro answer hanswer
    obtain ⟨n, hn, rfl⟩ := List.mem_map.mp hanswer
    exact hbefore n (List.mem_range.mp hn)

end Cursor

/-! ## Tokens on demand -/

/-- A scan that gives out its answers on demand, and whether it is done. -/
structure TokenIterator where
  cursor : Cursor
  done : Bool

namespace TokenIterator

/-- The start of a source text. -/
def start (source : String) : TokenIterator := ⟨.start source, false⟩

/-- Whether the answer is the last one: the end of the input or a problem. -/
def isLast : Scanned → Bool
  | .ok token => token.isEof
  | .error _ => true

theorem isLast_eq (answer : Scanned) : isLast answer = (Cursor.isEnd answer || !answer.isOk) := by
  cases answer with
  | ok token => exact (Bool.or_false _).symm
  | error e => rfl

/-- The next answer, unless the last one has been given out. -/
def next (it : TokenIterator) : Option Scanned × TokenIterator :=
  if it.done then (none, it)
  else (some it.cursor.next.1, ⟨it.cursor.next.2, isLast it.cursor.next.1⟩)

/-- The iterator after a number of calls. -/
def after (it : TokenIterator) : Nat → TokenIterator
  | 0 => it
  | n + 1 => (it.after n).next.2

/-- What the call with the given number gives out, counted from 0. -/
def item (it : TokenIterator) (n : Nat) : Option Scanned := (it.after n).next.1

theorem item_next (it : TokenIterator) (n : Nat) : it.next.2.item n = it.item (n + 1) := by
  have hafter : it.next.2.after n = it.after (n + 1) := by
    induction n with
    | zero => rfl
    | succ n ih => exact congrArg (fun it => it.next.2) ih
  rw [item, hafter, item]

theorem item_of_done (cursor : Cursor) (n : Nat) : item ⟨cursor, true⟩ n = none := by
  induction n with
  | zero => rfl
  | succ n ih => rw [← item_next]; exact ih

end TokenIterator

theorem upToProblem_cons (answer : Scanned) (answers : List Scanned) :
    upToProblem (answer :: answers) =
      answer :: if answer.isOk then upToProblem answers else [] := by
  cases answer <;> rfl

/-- The answers up to the last one: the next one and, unless it is the last, those that follow. -/
theorem upToProblem_answers (cursor : Cursor) : upToProblem cursor.answers =
    cursor.next.1 :: if TokenIterator.isLast cursor.next.1 then []
      else upToProblem cursor.next.2.answers := by
  rw [Cursor.answers_eq, upToProblem_cons]
  cases hanswer : cursor.next.1 with
  | error e => rfl
  | ok token =>
    cases htoken : token.isEof <;>
      simp [Cursor.isEnd, TokenIterator.isLast, htoken, Except.isOk, Except.toBool, upToProblem]

/-- What an iterator gives out is listed by `upToProblem`. -/
theorem TokenIterator.item_eq_getElem? (cursor : Cursor) (n : Nat) :
    item ⟨cursor, false⟩ n = (upToProblem cursor.answers)[n]? := by
  induction n generalizing cursor with
  | zero => rw [upToProblem_answers]; rfl
  | succ n ih =>
    have hnext : (next ⟨cursor, false⟩).2 = ⟨cursor.next.2, isLast cursor.next.1⟩ := rfl
    rw [upToProblem_answers, List.getElem?_cons_succ, ← item_next, hnext]
    cases isLast cursor.next.1 with
    | true => exact item_of_done _ n
    | false => exact ih _

/-- The answers are cut after the first one that is the last. -/
theorem exists_upToProblem_eq (cursor : Cursor) : ∃ k,
    (∀ n < k, TokenIterator.isLast (cursor.answerAt n) = false) ∧
    TokenIterator.isLast (cursor.answerAt k) = true ∧
    upToProblem cursor.answers = Cursor.firstAnswers (k + 1) cursor := by
  have hstop : ∀ answer, Cursor.isEnd answer = true → TokenIterator.isLast answer = true := by
    intro answer hend
    rw [TokenIterator.isLast_eq, hend, Bool.true_or]
  obtain ⟨k, -, hk⟩ := Cursor.exists_first hstop upToProblem_answers cursor
  exact ⟨k, hk⟩

theorem TokenIterator.item_start {source : String} {k : Nat}
    (h : upToProblem (scan source) = Cursor.firstAnswers (k + 1) (.start source)) (n : Nat) :
    (start source).item n = if n ≤ k then some ((Cursor.start source).answerAt n) else none := by
  rw [start, item_eq_getElem?, ← scan, h, Cursor.firstAnswers_eq, List.getElem?_map]
  split
  · rw [List.getElem?_range (by omega)]
    rfl
  · rw [List.getElem?_eq_none (by simp; omega)]
    rfl

/-! ## Progress -/

/-- **Progress.** The calls of a scan go on, also after problems. Each of them that does not answer
with the end of the input takes the cursor further in the source, so there are at most as many of
them as there are characters. After these every call answers with the same end of the input, which
has no text and is on the last line. An iterator gives out the same answers up to the first one that
is the end of the input or a problem, and nothing after it. -/
theorem calls_make_progress (source : String) :
    (∀ n, Cursor.firstAnswers n (.start source) =
      (List.range n).map (Cursor.start source).answerAt) ∧
    (∀ n, ((Cursor.start source).after n).rest <:+ source.toList ∧
      (Cursor.isEnd ((Cursor.start source).answerAt n) = false →
        ((Cursor.start source).after n).offset source <
          ((Cursor.start source).after (n + 1)).offset source)) ∧
    ∃ m k, m ≤ source.length ∧ k ≤ m ∧
      (∀ n < m, Cursor.isEnd ((Cursor.start source).answerAt n) = false) ∧
      (∀ n, (Cursor.start source).answerAt (m + n) =
        .ok ⟨.eof, 1 + source.toList.count '\n'⟩) ∧ TokenKind.eof.lexeme = "" ∧
      scan source = Cursor.firstAnswers (m + 1) (.start source) ∧
      (∀ n < k, ((Cursor.start source).answerAt n).isOk = true) ∧
      (k = m ∨ ((Cursor.start source).answerAt k).isOk = false) ∧
      (∀ n, (TokenIterator.start source).item n =
        if n ≤ k then some ((Cursor.start source).answerAt n) else none) ∧
      upToProblem (scan source) = Cursor.firstAnswers (k + 1) (.start source) := by
  obtain ⟨m, hm, hbefore, hend, hscan⟩ := (Cursor.start source).exists_answers_eq
  obtain ⟨k, hok, hlast, hlist⟩ := exists_upToProblem_eq (.start source)
  simp only [TokenIterator.isLast_eq, Bool.or_eq_false_iff, Bool.not_eq_false'] at hok
  rw [TokenIterator.isLast_eq, Bool.or_eq_true, Bool.not_eq_true'] at hlast
  have hkm : k ≤ m := by
    by_contra hlt
    rw [(hok m (Nat.lt_of_not_le hlt)).1] at hend
    cases hend
  refine ⟨fun n => Cursor.firstAnswers_eq n _, fun n => ?_, m, k, ?_, hkm, hbefore,
    Cursor.answerAt_of_isEnd hend, rfl, hscan, fun n hn => (hok n hn).2, ?_,
    TokenIterator.item_start hlist, hlist⟩
  · obtain ⟨read, hread⟩ := Cursor.exists_reached source n
    exact ⟨⟨read, hread.split.symm⟩, hread.offset_lt⟩
  · rwa [← String.length_toList]
  · obtain hend' | hproblem := hlast
    · refine .inl (hkm.antisymm ?_)
      by_contra hlt
      rw [hbefore k (Nat.lt_of_not_le hlt)] at hend'
      cases hend'
    · exact .inr hproblem

/-- A text with problems only: two strings that are broken off, a letter that is no name, a number
with a letter and a null character in it, and a comment that is never closed. -/
def troubledText : String := "\"a\n\"b\u00e9 9x\x00/*\n"

theorem troubledText_makes_progress :
    Cursor.firstAnswers 7 (.start troubledText) =
      [.error ⟨1, .lineBreakInString⟩, .error ⟨2, .unsupportedCharacter '\u00e9'⟩,
        .error ⟨2, .unrecognizedWord "\u00e9"⟩, .error ⟨2, .malformedInteger "9x\x00"⟩,
        .error ⟨2, .unterminatedComment⟩, .ok ⟨.eof, 3⟩, .ok ⟨.eof, 3⟩] ∧
    ∀ n < 5, ((Cursor.start troubledText).after n).offset troubledText <
      ((Cursor.start troubledText).after (n + 1)).offset troubledText := by
  obtain ⟨-, hnext, -⟩ := calls_make_progress troubledText
  refine ⟨by decide +kernel, fun n hn => (hnext n).2 ?_⟩
  revert n
  decide +kernel

end Jack
