import Jack.Document.Block
import Jack.Document.Property
import Jack.Document.Scalar

/-!
# From characters to signs

Outside of brackets the layout decides: a block starts where something stands further to the right
than the block around it, and ends where something stands further to the left. That a scalar is a
key shows only at the colon after it, so the place where a key may have started is remembered, and
the signs for the key and for the start of its block are put in there later. A key stands on one
line and has at most 1024 characters.
-/

namespace Jack.Document

/-- A place where a key may have started. -/
structure Candidate where
  /-- How many signs come before it. -/
  position : Nat
  /-- Where it starts. -/
  spot : Spot
  /-- Whether it has to be a key, because it starts in the column of the block around it. -/
  isDue : Bool

/-- How far a key may reach. -/
def keyLimit : Nat := 1024

/-- Whether a key that starts at the candidate would be over at the spot. -/
def Candidate.isOver (candidate : Candidate) (spot : Spot) : Bool :=
  candidate.spot.line < spot.line || candidate.spot.index + keyLimit < spot.index

/-- A document that has been read in part. -/
structure Scanner where
  /-- What is left to read. -/
  row : Row
  signs : Array Sign := #[]
  /-- The columns of the blocks around, the innermost first. -/
  indents : List Nat := []
  /-- Whether a key may start here. -/
  keyAllowed : Bool := true
  candidate : Option Candidate := none
  /-- The candidates outside of the brackets around, the innermost first. -/
  outer : List (Option Candidate) := []

namespace Scanner

/-- Whether there are brackets around. -/
def inFlow (s : Scanner) : Bool := !s.outer.isEmpty

/-! ## Keys -/

/-- Give up the candidate. One that is due may not be given up. -/
def forget (s : Scanner) : Option Scanner :=
  if s.candidate.any Candidate.isDue then none else some { s with candidate := none }

/-- The candidate, unless it is over. One that is due may not be over. -/
def current? (spot : Spot) : Option Candidate → Option (Option Candidate)
  | none => some none
  | some candidate =>
    if candidate.isOver spot then if candidate.isDue then none else some none
    else some (some candidate)

/-- Give up the candidates that are over. -/
def forgetOver (s : Scanner) : Option Scanner := do
  return { s with
    candidate := ← current? s.row.spot s.candidate
    outer := ← s.outer.mapM (current? s.row.spot) }

/-- Make this place the candidate, if a key may start here. -/
def propose (s : Scanner) : Option Scanner :=
  if s.keyAllowed then do
    let isDue := !s.inFlow && s.indents.head? == some s.row.column
    return { ← s.forget with candidate := some ⟨s.signs.size, s.row.spot, isDue⟩ }
  else
    some s

/-! ## Blocks -/

/-- Start a block in a column to the right of the block around, with its sign at the position. -/
def openBlock (column position : Nat) (sign : Sign) (s : Scanner) : Scanner :=
  if !s.inFlow && s.indents.head?.all (· < column) then
    { s with
      indents := column :: s.indents
      signs := s.signs.insertIdxIfInBounds position sign }
  else
    s

/-- End the blocks whose columns have a property. -/
def closeBlocks (property : Nat → Bool) (s : Scanner) : Scanner :=
  if s.inFlow then s
  else
    let closed := s.indents.takeWhile property
    { s with
      indents := s.indents.drop closed.length
      signs := s.signs ++ closed.map fun _ => Sign.blockEnd }

/-- End all blocks and give up the candidate. -/
def closeAll (s : Scanner) : Option Scanner := (s.closeBlocks fun _ => true).forget

/-! ## Signs -/

/-- Append a sign. What was read for it ends before the row, and a key may or may not follow. -/
def emit (sign : Sign) (keyAllowed : Bool) (row : Row) (s : Scanner) : Scanner :=
  { s with signs := s.signs.push sign, keyAllowed := keyAllowed, row := row }

/-- A line that starts or ends a document. -/
def documentMark (sign : Sign) (s : Scanner) : Option Scanner := do
  return (← s.closeAll).emit sign false (s.row.drop 3)

/-- A directive. -/
def directive (s : Scanner) : Option Scanner := do
  let (sign, row) ← directive? s.row
  return (← s.closeAll).emit sign false row

/-- An opening bracket. -/
def openFlow (sign : Sign) (s : Scanner) : Option Scanner := do
  let s ← s.propose
  return { s with candidate := none, outer := s.candidate :: s.outer }.emit sign true s.row.next

/-- A closing bracket. -/
def closeFlow (sign : Sign) (s : Scanner) : Option Scanner := do
  let s ← s.forget
  let s := match s.outer with
    | [] => s
    | candidate :: outer => { s with candidate := candidate, outer := outer }
  return s.emit sign false s.row.next

/-- A comma within brackets. -/
def flowEntry (s : Scanner) : Option Scanner := do
  return (← s.forget).emit .flowEntry true s.row.next

/-- An indicator in front of an entry of a block. Outside of brackets it may start the block, where
a key may start too. -/
def indicator (sign start : Sign) (keyAllowed : Bool) (s : Scanner) : Option Scanner := do
  guard (s.inFlow || s.keyAllowed)
  let s ← (s.openBlock s.row.column s.signs.size start).forget
  return s.emit sign keyAllowed s.row.next

/-- A colon. What started at the candidate was a key. -/
def value (s : Scanner) : Option Scanner :=
  match s.candidate with
  | some candidate =>
    let s := { s with
      candidate := none
      signs := s.signs.insertIdxIfInBounds candidate.position .key }
    let s := s.openBlock candidate.spot.column candidate.position .blockMappingStart
    some (s.emit .value false s.row.next)
  | none => s.indicator .value .blockMappingStart (!s.inFlow)

/-- A block scalar. -/
def blockScalar (style : Style) (s : Scanner) : Option Scanner := do
  let s ← s.forget
  let (text, row) ← blockScalar? (style == .folded) s.indents.head? s.row.next
  return s.emit (.scalar style text) true row

/-- A sign that may start a key, with the row after it. -/
def mayStartKey (read : Option (Sign × Row)) (s : Scanner) : Option Scanner := do
  let s ← s.propose
  let (sign, row) ← read
  return s.emit sign false row

/-- A plain scalar. After a line break a key may follow. -/
def plainScalar (s : Scanner) : Option Scanner := do
  let s ← s.propose
  let indent := match s.indents with
    | [] => 0
    | column :: _ => column + 1
  let (text, broken, row) ← plain s.inFlow indent [] [] false s.row
  return s.emit (.scalar .plain text) broken row

/-- Read the sign that starts here. -/
def read (s : Scanner) : Option Scanner :=
  let c := s.row.first
  let separate := separates s.row.second
  if s.row.column == 0 && c == '%' then s.directive
  else if s.row.isRuler '-' then s.documentMark .documentStart
  else if s.row.isRuler '.' then s.documentMark .documentEnd
  else if c == '[' then s.openFlow .flowSequenceStart
  else if c == '\x7b' then s.openFlow .flowMappingStart
  else if c == ']' then s.closeFlow .flowSequenceEnd
  else if c == '\x7d' then s.closeFlow .flowMappingEnd
  else if c == ',' then s.flowEntry
  else if c == '-' && separate then s.indicator .blockEntry .blockSequenceStart true
  else if c == '?' && (s.inFlow || separate) then
    s.indicator .key .blockMappingStart (!s.inFlow)
  else if c == ':' && (s.inFlow || separate) then s.value
  else if c == '*' then
    s.mayStartKey ((anchorName? s.row.next).map fun (name, row) => (.reference name, row))
  else if c == '&' then
    s.mayStartKey ((anchorName? s.row.next).map fun (name, row) => (.anchor name, row))
  else if c == '!' then s.mayStartKey (tag? s.inFlow s.row)
  else if c == '|' && !s.inFlow then s.blockScalar .literal
  else if c == '>' && !s.inFlow then s.blockScalar .folded
  else if c == '\x27' then
    s.mayStartKey ((singleQuoted [] [] s.row.next).map fun (text, row) =>
      (.scalar .singleQuoted text, row))
  else if c == '"' then
    s.mayStartKey ((doubleQuoted [] [] false s.row.next).map fun (text, row) =>
      (.scalar .doubleQuoted text, row))
  else if startsPlain s.inFlow c s.row.second then s.plainScalar
  else none

/-! ## Between signs -/

/-- The mark of byte order, which may start a line. -/
def byteOrderMark : Char := '\ufeff'

/-- Skip to the next sign, and tell whether a key may start there. Where a key may start, a tab may
not stand before it. -/
def skipToSign (inFlow keyAllowed inComment : Bool) : Row → Bool × Row
  | [] => (keyAllowed, [])
  | s :: rest =>
    if isBreak s.char then skipToSign inFlow (keyAllowed || !inFlow) false rest
    else if inComment then
      if s.char == endMark then (keyAllowed, s :: rest) else skipToSign inFlow keyAllowed true rest
    else if s.char == '#' then skipToSign inFlow keyAllowed true rest
    else if s.char == ' ' || (s.char == '\t' && (inFlow || !keyAllowed)) ||
        (s.char == byteOrderMark && s.column == 0) then
      skipToSign inFlow keyAllowed false rest
    else
      (keyAllowed, s :: rest)

/-- Go on to the next sign, and end the blocks that it is outside of. -/
def toSign (s : Scanner) : Option Scanner := do
  let (keyAllowed, row) := skipToSign s.inFlow s.keyAllowed false s.row
  let s ← forgetOver { s with keyAllowed := keyAllowed, row := row }
  return s.closeBlocks fun column => s.row.column < column

/-- Read all signs, as many as the bound allows. -/
def readAll : Nat → Scanner → Option (List Sign)
  | 0, _ => none
  | bound + 1, s => do
    let s ← s.toSign
    if s.row.first == endMark then
      return (← s.closeAll).signs.toList
    else
      readAll bound (← s.read)

end Scanner

/-- The signs of a text. Each is at least one character long, so there are no more of them than
characters. -/
def signs? (text : String) : Option (List Sign) := do
  let row ← row? text.toList
  Scanner.readAll row.length { row := row }

end Jack.Document
