import Jack.Document.Sign
import Jack.Document.Spot

/-!
# Scalars

Plain and quoted scalars may run over several lines. A gap of blanks and line breaks within one is
folded: a single line break becomes a space, and of several the first is dropped. The texts read so
far and the gap after them are carried along with their latest characters first.
-/

namespace Jack.Document

/-! ## Gaps -/

/-- What a gap stands for, given with its latest character first. -/
def fold (gap : List Char) : List Char :=
  match gap.reverse.filter isBreak with
  | [] => gap.reverse
  | ['\n'] => [' ']
  | '\n' :: breaks => breaks
  | breaks => breaks

/-- A text, a gap and a character after it. -/
def extend (text gap : List Char) (c : Char) : List Char := c :: ((fold gap).reverse ++ text)

/-! ## Plain scalars -/

/-- The characters that end a plain scalar within brackets, whatever follows them. -/
def flowIndicators : List Char := [',', '[', ']', '\x7b', '\x7d']

/-- The characters that start no plain scalar. -/
def indicators : List Char :=
  flowIndicators ++ ['#', '&', '*', '!', '|', '>', '\x27', '"', '%', '@', '\x60']

/-- Whether a plain scalar starts with the two characters. -/
def startsPlain (inFlow : Bool) (c next : Char) : Bool :=
  if c == '-' then !isSpace next
  else if c == '?' || c == ':' then !inFlow && !separates next
  else !separates c && !indicators.contains c

/-- Whether a plain scalar ends before the character, given the next one. -/
def endsPlain (inFlow : Bool) (c next : Char) : Bool :=
  c == endMark || (c == ':' && separates next) || (inFlow && flowIndicators.contains c)

/-- A plain scalar, whether a line break came after it, and the row after both. Its lines are
indented at least as given. After a gap a comment may start, and after a line break another
document. -/
def plain (inFlow : Bool) (indent : Nat) (text gap : List Char) (broken : Bool) :
    Row → Option (String × Bool × Row)
  | [] => none
  | s :: rest =>
    if isSpace s.char || isBreak s.char then
      if s.char == '\t' && broken && s.column < indent then none
      else plain inFlow indent text (s.char :: gap) (broken || isBreak s.char) rest
    else if endsPlain inFlow s.char (Row.first rest) || (!gap.isEmpty && s.char == '#') ||
        (broken && (Row.isDocumentMark (s :: rest) || (!inFlow && s.column < indent))) then
      some (String.ofList text.reverse, broken, s :: rest)
    else if inFlow && s.char == ':' && (Row.first rest == '?' ||
        flowIndicators.contains (Row.first rest)) then
      none
    else
      plain inFlow indent (extend text gap s.char) [] false rest

/-! ## Quoted scalars -/

/-- A scalar in single quotes, whose opening quote has been read, and the row after it. A doubled
quote stands for one. -/
def singleQuoted (text gap : List Char) : Row → Option (String × Row)
  | [] => none
  | s :: rest =>
    if isSpace s.char || isBreak s.char then singleQuoted text (s.char :: gap) rest
    else if s.char == endMark || Row.isDocumentMark (s :: rest) then none
    else if s.char == '\x27' then
      match rest with
      | [] => none
      | t :: after =>
        if t.char == '\x27' then singleQuoted (extend text gap '\x27') [] after
        else some (String.ofList ((fold gap).reverse ++ text).reverse, t :: after)
    else
      singleQuoted (extend text gap s.char) [] rest

/-- The characters that stand for another one after a backslash. -/
def escapes : List (Char × Char) :=
  [('0', Char.ofNat 0), ('a', '\x07'), ('b', '\x08'), ('t', '\t'), ('\t', '\t'), ('n', '\n'),
    ('v', '\x0b'), ('f', '\x0c'), ('r', '\r'), ('e', '\x1b'), (' ', ' '), ('"', '"'), ('/', '/'),
    ('\\', '\\'), ('N', '\u0085'), ('_', '\u00a0'), ('L', '\u2028'), ('P', '\u2029')]

/-- The number of hexadecimal digits of the code point after the character. -/
def codeLength : Char → Nat
  | 'x' => 2
  | 'u' => 4
  | 'U' => 8
  | _ => 0

/-- The character with the code point that the digits give. -/
def charOfCode? (digits : List Char) : Option Char := do
  let value ← digits.foldlM (fun value c => do return 16 * value + (← hexValue? c)) 0
  if value.isValidChar then some (Char.ofNat value) else none

/-- The character that an escape stands for, and how many characters belong to the escape after its
first one. -/
def escape? (c : Char) (after : Row) : Option (Char × Nat) :=
  match escapes.lookup c with
  | some d => some (d, 0)
  | none =>
    let digits := (after.take (codeLength c)).map Spot.char
    if 0 < codeLength c && digits.length = codeLength c then
      (charOfCode? digits).map fun d => (d, codeLength c)
    else
      none

/-- A scalar in double quotes, whose opening quote has been read, and the row after it. An escaped
line break is dropped, and of the gap after it only the further line breaks are kept. -/
def doubleQuoted (text gap : List Char) (cut : Bool) (row : Row) : Option (String × Row) :=
  match row with
  | [] => none
  | s :: rest =>
    if isSpace s.char || isBreak s.char then doubleQuoted text (s.char :: gap) cut rest
    else
      let text := (if cut then gap.filter isBreak else (fold gap).reverse) ++ text
      if s.char == endMark || Row.isDocumentMark (s :: rest) then none
      else if s.char == '"' then some (String.ofList text.reverse, rest)
      else if s.char == '\\' then
        match rest with
        | [] => none
        | t :: after =>
          if isBreak t.char then doubleQuoted text [] true after
          else
            match escape? t.char after with
            | none => none
            | some (c, n) => doubleQuoted (c :: text) [] false (after.drop n)
      else
        doubleQuoted (s.char :: text) [] false rest
termination_by row.length
decreasing_by all_goals simp only [List.length_cons, List.length_drop]; omega

end Jack.Document
