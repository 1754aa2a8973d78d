import Jack.Document.Spot

/-!
# Block scalars

A block scalar is a run of lines that are indented alike. Its header says how the line breaks at its
end are kept, and how far its lines are indented if the first of them does not show it. A literal
scalar keeps its line breaks; a folded one joins lines that do not start with a blank.
-/

namespace Jack.Document

/-- What is kept of the line breaks at the end of a block scalar: one, none or all. -/
inductive Chomping where
  | clip
  | strip
  | keep
  deriving DecidableEq, Repr

/-- The chomping that a character of the header asks for. -/
def Chomping.ofChar? : Char → Option Chomping
  | '+' => some keep
  | '-' => some strip
  | _ => none

/-- The depth that a header gives, or zero if it gives none. A zero may not be written. -/
def depth? (row : Row) : Option (Nat × Row) :=
  if row.first == '0' then none
  else if row.first.isDigit then some (row.first.toNat - '0'.toNat, row.next)
  else some (0, row)

/-- The header of a block scalar, after its indicator: chomping and depth, in either order. -/
def blockHeader? (row : Row) : Option (Chomping × Nat × Row) :=
  match Chomping.ofChar? row.first with
  | some chomping => (depth? row.next).map fun (depth, row) => (chomping, depth, row)
  | none => do
    let (depth, row) ← depth? row
    match Chomping.ofChar? row.first with
    | some chomping => some (chomping, depth, row.next)
    | none => some (.clip, depth, row)

/-- Skip indentation and the line breaks of empty lines, up to the given column, or to any column if
that is zero. The answer is the line breaks, the latest first, the furthest column reached, and the
rest. A tab is no indentation. -/
def emptyLines (indent : Nat) (breaks : List Char) (furthest : Nat) :
    Row → Option (List Char × Nat × Row)
  | [] => none
  | s :: rest =>
    let within := indent == 0 || s.column < indent
    if s.char == ' ' && within then emptyLines indent breaks furthest rest
    else if s.char == '\t' && within then none
    else if isBreak s.char then emptyLines indent (s.char :: breaks) (max furthest s.column) rest
    else some (breaks, max furthest s.column, s :: rest)

/-- The lines of a block scalar, as many as the bound allows. Text and line breaks are given and
answered with the latest character first: the text, the break after its last line, and the breaks
of the empty lines after that. -/
def blockLines (isFolded : Bool) (indent : Nat) :
    Nat → List Char → List Char → List Char → Bool → Row →
      Option (List Char × List Char × List Char × Row)
  | 0, _, _, _, _, _ => none
  | bound + 1, text, last, breaks, wasBlank, row =>
    if row.column == indent && row.first != endMark then do
      let blank := isSpace row.first
      let joint :=
        if isFolded && last == ['\n'] && !wasBlank && !blank then
          if breaks.isEmpty then [' '] else []
        else
          last
      let line := row.leading (!endsLine ·)
      let row := row.skip (!endsLine ·)
      let (last, row) := if isBreak row.first then ([row.first], row.next) else ([], row)
      let text := line.reverse ++ (breaks ++ (joint ++ text))
      let (breaks, _, row) ← emptyLines indent [] 0 row
      blockLines isFolded indent bound text last breaks blank row
    else
      some (text, last, breaks, row)

/-- A block scalar after its indicator. It stands in a block of the given indentation, if in any. -/
def blockScalar? (isFolded : Bool) (outer : Option Nat) (row : Row) : Option (String × Row) := do
  let (chomping, depth, row) ← blockHeader? row
  let row ← row.restOfLine?
  let given := if depth = 0 then 0 else outer.getD 0 + depth
  let (breaks, furthest, row) ← emptyLines given [] 0 row
  let least := match outer with
    | some indent => indent + 1
    | none => 1
  let indent := if given = 0 then max furthest least else given
  let (text, last, breaks, row) ← blockLines isFolded indent row.length [] [] breaks false row
  let text := match chomping with
    | .strip => text
    | .clip => last ++ text
    | .keep => breaks ++ (last ++ text)
  return (String.ofList text.reverse, row)

end Jack.Document
