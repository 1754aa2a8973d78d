import Jack.Token.Cursor

/-!
# Scanning a whole text

`scan` lists the answers of repeated scanning, problems included, up to and with the first end of
the input, after which the answer never changes.
-/

namespace Jack

namespace Cursor

/-- All answers from the cursor on, to the end of the input, after those already found. The latter
are given last first. -/
def collect (cursor : Cursor) (found : List Scanned) : List Scanned :=
  match h : cursor.next with
  | (answer, after) =>
    if hend : isEnd answer then (answer :: found).reverse
    else
      have : after.rest.length < cursor.rest.length := by
        have hlt := length_rest_next_lt cursor (by simpa [h] using hend)
        rwa [h] at hlt
      collect after (answer :: found)
termination_by cursor.rest.length

theorem collect_eq (cursor : Cursor) (found : List Scanned) :
    cursor.collect found = if isEnd cursor.next.1 then (cursor.next.1 :: found).reverse
      else cursor.next.2.collect (cursor.next.1 :: found) := by
  rw [collect]
  split
  rename_i heq
  simp [heq]

/-- What was already found stands in front. -/
theorem collect_append (cursor : Cursor) (found : List Scanned) :
    cursor.collect found = found.reverse ++ cursor.collect [] := by
  induction hn : cursor.rest.length using Nat.strongRecOn generalizing cursor found with
  | ind n ih =>
    rw [collect_eq cursor found, collect_eq cursor []]
    by_cases h : isEnd cursor.next.1 = true
    · simp [h]
    · have hlt := length_rest_next_lt cursor (by simpa using h)
      rw [if_neg h, if_neg h, ih _ (hn ▸ hlt) _ _ rfl, ih _ (hn ▸ hlt) _ [_] rfl]
      simp

/-- All answers from the cursor on, to the end of the input. -/
def answers (cursor : Cursor) : List Scanned := cursor.collect []

/-- The answers are the next one and, unless it is the end, those that follow. -/
theorem answers_eq (cursor : Cursor) :
    cursor.answers = cursor.next.1 ::
      if isEnd cursor.next.1 then [] else cursor.next.2.answers := by
  unfold answers
  rw [collect_eq]
  split
  · rfl
  · rw [collect_append]
    rfl

/-- The first `n` answers; the end of the input is repeated as often as needed. -/
def firstAnswers : Nat → Cursor → List Scanned
  | 0, _ => []
  | n + 1, cursor =>
    match cursor.next with
    | (answer, after) => answer :: firstAnswers n after

end Cursor

/-- The answers of scanning a text, one after the other, to the end of the input. -/
def scan (source : String) : List Scanned := (Cursor.start source).answers

/-- The answers up to and with the first problem. -/
def upToProblem (answers : List Scanned) : List Scanned :=
  answers.takeWhile Except.isOk ++ (answers.dropWhile Except.isOk).take 1

end Jack
