import Jack.Fault
import Jack.Text.Blank

/-!
# Scanning one token

A `Cursor` is the part of the source that is still to be read and the line on which it starts.
`Cursor.next` skips the gap before a token and reads the token:

1. a gap is made of blanks, comments `// ...` to the end of the line and comments `/* ... */`;
2. a string runs from a quote to the next quote, in ASCII and on one line;
3. a symbol is one character;
4. everything else up to the next blank, quote or symbol is a word.

A fault does not stop the scan: the cursor stands after what was at fault, and the next call reads
on from there. Every call that does not answer with the end of the input reads at least one
character (`Cursor.length_rest_next_lt`).
-/

namespace Jack

open Text

/-- The unread part of a source text and the line on which it starts. -/
structure Cursor where
  rest : List Char
  line : Nat
  deriving DecidableEq, Repr

/-- A token, or the problem met instead of one. -/
abbrev Scanned := Except Problem Token

namespace Cursor

/-- The start of a source text. -/
def start (source : String) : Cursor := ⟨source.toList, 1⟩

/-- The line after the character has been read. -/
def lineAfter (c : Char) (line : Nat) : Nat := if c = '\n' then line + 1 else line

/-! ## Gaps -/

/-- Where in a gap the cursor stands: between comments, in a comment that ends with its line, or
in a comment opened on the given line that ends with its mark. -/
inductive Gap where
  | between
  | lineComment
  | blockComment (opened : Nat)
  deriving DecidableEq, Repr

/-- Skip blanks and comments. The cursor stands on the first character of a token or at the end;
with it comes the line of the opening mark if the last comment is never closed. -/
def skipGap : Gap → List Char → Nat → Option Nat × Cursor
  | .blockComment opened, [], line => (some opened, ⟨[], line⟩)
  | _, [], line => (none, ⟨[], line⟩)
  | .blockComment _, '*' :: '/' :: cs, line => skipGap .between cs line
  | .blockComment opened, c :: cs, line => skipGap (.blockComment opened) cs (lineAfter c line)
  | .lineComment, c :: cs, line =>
    skipGap (if isLineBreak c then .between else .lineComment) cs (lineAfter c line)
  | .between, '/' :: '/' :: cs, line => skipGap .lineComment cs line
  | .between, '/' :: '*' :: cs, line => skipGap (.blockComment line) cs line
  | .between, c :: cs, line =>
    if isBlank c then skipGap .between cs (lineAfter c line) else (none, ⟨c :: cs, line⟩)

theorem length_rest_skipGap_le (gap : Gap) (cs : List Char) (line : Nat) :
    (skipGap gap cs line).2.rest.length ≤ cs.length := by
  fun_induction skipGap gap cs line <;> simp_all <;> omega

/-- A comment that is never closed takes the whole rest of the source. -/
theorem rest_skipGap_of_unclosed {gap : Gap} {cs : List Char} {line opened : Nat}
    (h : (skipGap gap cs line).1 = some opened) : (skipGap gap cs line).2.rest = [] := by
  fun_induction skipGap gap cs line <;> simp_all

/-! ## Strings -/

/-- Whether the character may stand between the quotes of a string. -/
def isStringChar (c : Char) : Bool := c != '"' && !isLineBreak c && c.toNat < 128

/-- Read a string whose opening quote has been read. A character that may not stand in a string is
not read. -/
def string (cs : List Char) (line : Nat) : Scanned × Cursor :=
  match cs.dropWhile isStringChar with
  | [] => (.error ⟨line, .unterminatedString⟩, ⟨[], line⟩)
  | c :: rest =>
    if c = '"' then
      (.ok ⟨.string (String.ofList (cs.takeWhile isStringChar)), line⟩, ⟨rest, line⟩)
    else if isLineBreak c then
      (.error ⟨line, .lineBreakInString⟩, ⟨c :: rest, line⟩)
    else
      (.error ⟨line, .unsupportedCharacter c⟩, ⟨c :: rest, line⟩)

theorem length_rest_string_le (cs : List Char) (line : Nat) :
    (string cs line).2.rest.length ≤ cs.length := by
  have h := (List.dropWhile_suffix (l := cs) isStringChar).length_le
  unfold string
  split
  · simp
  · rename_i heq
    rw [heq, List.length_cons] at h
    split
    · simp only; omega
    · split <;> simpa using h

/-! ## Words -/

/-- Whether the character ends a word. -/
def isDelimiter (c : Char) : Bool := isBlank c || c == '"' || (Symbol.ofChar? c).isSome

/-- Whether the character may stand in a name. -/
def isNameChar (c : Char) : Bool := c.isAlphanum || c == '_'

/-- The number that a row of decimal digits stands for. -/
def decimalValue (digits : List Char) : Nat :=
  digits.foldl (fun value d => 10 * value + (d.toNat - '0'.toNat)) 0

/-- What a word stands for: a keyword, a number if it starts with a digit, else a name. -/
def wordKind (word : List Char) : Except Fault TokenKind :=
  let text := String.ofList word
  match Keyword.ofText? text with
  | some k => .ok (.keyword k)
  | none =>
    if word.head?.any Char.isDigit then
      if word.all Char.isDigit then
        if decimalValue word ≤ maxConstant then
          .ok (.integer (decimalValue word) text)
        else
          .error (.integerTooLarge text)
      else
        .error (.malformedInteger text)
    else if word.all isNameChar then
      .ok (.identifier text)
    else
      .error (.unrecognizedWord text)

/-- Read the word that starts with the given character. -/
def word (c : Char) (cs : List Char) (line : Nat) : Scanned × Cursor :=
  let after : Cursor := ⟨cs.dropWhile fun d => !isDelimiter d, line⟩
  match wordKind (c :: cs.takeWhile fun d => !isDelimiter d) with
  | .ok kind => (.ok ⟨kind, line⟩, after)
  | .error fault => (.error ⟨line, fault⟩, after)

theorem length_rest_word_le (c : Char) (cs : List Char) (line : Nat) :
    (word c cs line).2.rest.length ≤ cs.length := by
  have h := (List.dropWhile_suffix (l := cs) fun d => !isDelimiter d).length_le
  unfold word
  split <;> exact h

/-! ## Tokens -/

/-- Read one token, and answer with the cursor after it. At the end of the source the answer is
the end of the input, any number of times. -/
def next (cursor : Cursor) : Scanned × Cursor :=
  match skipGap .between cursor.rest cursor.line with
  | (some opened, after) => (.error ⟨opened, .unterminatedComment⟩, after)
  | (none, ⟨[], line⟩) => (.ok ⟨.eof, line⟩, ⟨[], line⟩)
  | (none, ⟨c :: cs, line⟩) =>
    if c = '"' then
      string cs line
    else
      match Symbol.ofChar? c with
      | some s => (.ok ⟨.symbol s, line⟩, ⟨cs, line⟩)
      | none => word c cs line

/-- Whether the answer is the end of the input. -/
def isEnd : Scanned → Bool
  | .ok token => token.isEof
  | .error _ => false

/-- Every answer but the end of the input takes at least one character off the source. -/
theorem length_rest_next_lt (cursor : Cursor) (h : isEnd cursor.next.1 = false) :
    cursor.next.2.rest.length < cursor.rest.length := by
  have hgap := length_rest_skipGap_le .between cursor.rest cursor.line
  unfold next at h ⊢
  split <;> rename_i heq <;> simp only [heq] at h hgap ⊢
  · rename_i opened after
    have hopen : (skipGap .between cursor.rest cursor.line).1 = some opened := by rw [heq]
    have hrest := rest_skipGap_of_unclosed hopen
    simp only [heq] at hrest
    cases hcs : cursor.rest with
    | nil => simp [hcs, skipGap] at heq
    | cons c cs => simp [hrest]
  · simp [isEnd, Token.isEof, TokenKind.isEof] at h
  · rename_i c cs line
    simp only [List.length_cons] at hgap
    split
    · have := length_rest_string_le cs line
      omega
    · split
      · simp only; omega
      · have := length_rest_word_le c cs line
        omega

end Cursor

end Jack
