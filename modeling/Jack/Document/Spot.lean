import Jack.Text.Ranges

/-!
# Characters in their places

A document is read as a row of characters, each with its place. A line break is one character,
however it was written, and a null character, which no document may hold, closes the row. So the
character after the current one can always be asked for, and the column of a character is known
without counting again.
-/

namespace Jack.Document

/-! ## Kinds of characters -/

/-- The code points that a document may hold: tabs, line breaks and what can be printed. -/
def allowedRanges : Text.Ranges :=
  [(0x9, 0xa), (0xd, 0xd), (0x20, 0x7e), (0x85, 0x85), (0xa0, 0xd7ff), (0xe000, 0xfffd),
    (0x10000, 0x10ffff)]

/-- The character that closes a row. -/
def endMark : Char := Char.ofNat 0

/-- A blank within a line. -/
def isSpace (c : Char) : Bool := c == ' ' || c == '\t'

/-- A line break in a row: a line feed, or one of the two separators of Unicode. -/
def isBreak (c : Char) : Bool := c == '\n' || c == '\u2028' || c == '\u2029'

/-- A line break or the end of the document. -/
def endsLine (c : Char) : Bool := isBreak c || c == endMark

/-- A blank, a line break or the end of the document. -/
def separates (c : Char) : Bool := isSpace c || endsLine c

/-- A letter, a digit, a dash or an underscore. -/
def isNameChar (c : Char) : Bool := c.isAlphanum || c == '-' || c == '_'

/-- The value of a hexadecimal digit. -/
def hexValue? (c : Char) : Option Nat :=
  if c.isDigit then some (c.toNat - '0'.toNat)
  else if 'a' ≤ c && c ≤ 'f' then some (c.toNat - 'a'.toNat + 10)
  else if 'A' ≤ c && c ≤ 'F' then some (c.toNat - 'A'.toNat + 10)
  else none

/-! ## Rows -/

/-- A character of a document. -/
structure Spot where
  char : Char
  /-- How many characters come before it. -/
  index : Nat
  /-- How many lines come before its line. -/
  line : Nat
  /-- How many characters of its line come before it. -/
  column : Nat
  deriving DecidableEq, Repr

/-- Characters in their places. -/
abbrev Row := List Spot

/-- The row of the characters that follow on the spots read so far, which are given with the latest
first. -/
def rowOnto (read : List Spot) (index line column : Nat) : List Char → Row
  | [] => (⟨endMark, index, line, column⟩ :: read).reverse
  | '\r' :: '\n' :: cs => rowOnto (⟨'\n', index, line, column⟩ :: read) (index + 2) (line + 1) 0 cs
  | c :: cs =>
    if c == '\r' || c == '\u0085' then
      rowOnto (⟨'\n', index, line, column⟩ :: read) (index + 1) (line + 1) 0 cs
    else if isBreak c then
      rowOnto (⟨c, index, line, column⟩ :: read) (index + 1) (line + 1) 0 cs
    else
      rowOnto (⟨c, index, line, column⟩ :: read) (index + 1) line (column + 1) cs

/-- The row of a text, if a document may hold all its characters. -/
def row? (text : List Char) : Option Row :=
  if text.all allowedRanges.contains then some (rowOnto [] 0 0 0 text) else none

namespace Row

/-- The first spot. -/
def spot (row : Row) : Spot := row.head?.getD ⟨endMark, 0, 0, 0⟩

/-- The first character. -/
def first (row : Row) : Char := row.spot.char

/-- The row after its first character. -/
def next (row : Row) : Row := row.tail

/-- The second character. -/
def second (row : Row) : Char := row.next.first

/-- The column of the first character. -/
def column (row : Row) : Nat := row.spot.column

/-- The row after the blanks at its start. -/
def skipSpaces (row : Row) : Row := row.dropWhile fun s => isSpace s.char

/-- The first characters, as long as they have a property. -/
def leading (property : Char → Bool) (row : Row) : List Char :=
  (row.takeWhile fun s => property s.char).map Spot.char

/-- The row after the first characters that have a property. -/
def skip (property : Char → Bool) (row : Row) : Row := row.dropWhile fun s => property s.char

/-- The row from the next line on, if nothing but blanks and a comment are left on this one. -/
def restOfLine? (row : Row) : Option Row :=
  let row := row.skipSpaces
  let row := if row.first == '#' then row.skip (!endsLine ·) else row
  if isBreak row.first then some row.next
  else if row.first == endMark then some row
  else none

/-- Whether a line starts here with the character three times and nothing attached to it. -/
def isRuler (c : Char) (row : Row) : Bool :=
  match row with
  | s :: t :: u :: rest =>
    s.column == 0 && s.char == c && t.char == c && u.char == c && separates (first rest)
  | _ => false

/-- Whether a line starts here that starts or ends a document. -/
def isDocumentMark (row : Row) : Bool := row.isRuler '-' || row.isRuler '.'

end Row

end Jack.Document
