import Jack.Document.Sign
import Jack.Document.Spot

/-!
# Properties and directives

A node may be given an anchor, by which it is referred to later, and a tag that says what it is. A
tag is written with a handle, whose meaning a directive gives, or in full between angle brackets.
-/

namespace Jack.Document

/-! ## Anchors -/

/-- The characters that may follow an anchor without a blank. -/
def anchorEnds : List Char := ['?', ':', ',', ']', '\x7d', '%', '@', '\x60']

/-- The name of an anchor, after its indicator. -/
def anchorName? (row : Row) : Option (String × Row) :=
  let name := row.leading isNameChar
  let rest := row.skip isNameChar
  if !name.isEmpty && (separates rest.first || anchorEnds.contains rest.first) then
    some (String.ofList name, rest)
  else
    none

/-! ## Tags -/

/-- The characters of a tag besides letters, digits, dashes and underscores. -/
def tagChars : List Char :=
  [';', '/', '?', ':', '@', '&', '=', '+', '$', '.', '!', '~', '*', '\x27', '(', ')']

/-- Whether a character may stand in a tag. One that is written in full may hold some more. -/
def isTagChar (inFull : Bool) (c : Char) : Bool :=
  isNameChar c || tagChars.contains c || (inFull && (c == ',' || c == '[' || c == ']'))

/-- How many bytes follow the first byte of a character. -/
def bytesAfter? (byte : Nat) : Option Nat :=
  if byte < 0x80 then some 0
  else if 0xc0 ≤ byte && byte < 0xe0 then some 1
  else if 0xe0 ≤ byte && byte < 0xf0 then some 2
  else if 0xf0 ≤ byte && byte < 0xf8 then some 3
  else none

/-- The characters of a tag, after those read so far, which are given with the latest first. A byte
may be written as a percent sign and two digits; the bytes of one character stand together. -/
def tagText (inFull : Bool) (read : List Char) (bytesLeft : Nat) :
    Row → Option (List Char × Row)
  | [] => none
  | s :: rest =>
    if s.char == '%' then
      match rest with
      | a :: b :: after => do
        let byte := 16 * (← hexValue? a.char) + (← hexValue? b.char)
        if bytesLeft = 0 then
          tagText inFull (Char.ofNat byte :: read) (← bytesAfter? byte) after
        else if 0x80 ≤ byte && byte < 0xc0 then
          tagText inFull (Char.ofNat byte :: read) (bytesLeft - 1) after
        else
          none
      | _ => none
    else if 0 < bytesLeft then none
    else if isTagChar inFull s.char then tagText inFull (s.char :: read) 0 rest
    else some (read.reverse, s :: rest)

/-- The characters of a tag, at least one. -/
def tagText? (inFull : Bool) (row : Row) : Option (String × Row) := do
  let (text, row) ← tagText inFull [] 0 row
  if text.isEmpty then none else some (String.ofList text, row)

/-- The start of a tag: an exclamation mark, a name, and perhaps another exclamation mark. -/
def tagHandle (row : Row) : String × Row :=
  let name := row.next.leading isNameChar
  let rest := row.next.skip isNameChar
  if rest.first == '!' then (String.ofList ('!' :: (name ++ ['!'])), rest.next)
  else (String.ofList ('!' :: name), rest)

/-- Handle and suffix of a tag. A tag in full has an empty handle, and so has the tag that is a mere
exclamation mark. -/
def tagParts? (row : Row) : Option (String × String × Row) :=
  if row.second == '<' then do
    let (text, row) ← tagText? true (row.drop 2)
    if row.first == '>' then some ("", text, row.next) else none
  else
    let (handle, rest) := tagHandle row
    if 2 ≤ handle.length && handle.toList.getLast? == some '!' then do
      let (suffix, row) ← tagText? false rest
      some (handle, suffix, row)
    else do
      let (suffix, row) ← tagText false [] 0 rest
      let suffix := String.ofList (handle.toList.drop 1 ++ suffix)
      if suffix = "" then some ("", "!", row) else some ("!", suffix, row)

/-- A tag and the row after it. Within brackets a comma may follow at once. -/
def tag? (inFlow : Bool) (row : Row) : Option (Sign × Row) := do
  let (handle, suffix, row) ← tagParts? row
  if separates row.first || (inFlow && row.first == ',') then
    some (.tag handle suffix, row)
  else
    none

/-! ## Directives -/

/-- A part of a version number, of at most nine digits. -/
def versionNumber? (row : Row) : Option (Nat × Row) :=
  let digits := row.leading Char.isDigit
  if digits.isEmpty || 9 < digits.length then none
  else
    some (digits.foldl (fun n c => 10 * n + (c.toNat - '0'.toNat)) 0, row.skip Char.isDigit)

/-- The version that a directive asks for. -/
def version? (row : Row) : Option (Sign × Row) := do
  let (major, row) ← versionNumber? row.skipSpaces
  if row.first == '.' then
    let (minor, row) ← versionNumber? row.next
    some (.version major minor, row)
  else
    none

/-- The handle that a directive gives a meaning to. -/
def handle? (row : Row) : Option (Sign × Row) := do
  let row := row.skipSpaces
  let (name, rest) := tagHandle row
  let isHandle := name = "!" || name.toList.getLast? == some '!'
  if row.first == '!' && isHandle && isSpace rest.first then
    let (meaning, row) ← tagText? true rest.skipSpaces
    if separates row.first then some (.handle name meaning, row) else none
  else
    none

/-- A directive and the row from the line after it on. -/
def directive? (row : Row) : Option (Sign × Row) := do
  let name := String.ofList (row.next.leading isNameChar)
  let rest := row.next.skip isNameChar
  guard (separates rest.first)
  let (sign, rest) ←
    if name = "YAML" then version? rest else if name = "TAG" then handle? rest else none
  return (sign, ← rest.restOfLine?)

end Jack.Document
