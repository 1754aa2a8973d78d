import Jack.Pass.Event
import Jack.Token.Stream

/-!
# One pass over the tokens

A pass walks over a token stream and drives a device as it goes. Whatever it does to the outside is
an event that the device handles at once, and a failure of the device stops the pass, as a problem
of the source text does. The operations here read tokens and drive the device:

1. `next` consumes the current token, which the device hears of before the following one is scanned;
2. `accept` consumes a given token if it is the current one;
3. `expect` and `expectName` insist on it and complain otherwise;
4. `finish` insists on the end of the input.

A `Pass` is one that keeps a journal of its events. Its device never fails.
-/

namespace Jack

/-- The functions that are entered again beneath themselves, or that are loops over tokens. The
characters of a string and the lines of a listing are gone through as lists, without an entry. -/
inductive Pass.Site where
  | classVariables | subroutines | declaredNames | localVariables | parameters
  | statements | statement | ifStatement | whileStatement
  | call | arguments | moreArguments | expression | operations | term
  deriving DecidableEq, Repr

/-- Where a pass stands: the tokens ahead, and the device that it drives. -/
structure Pass.State (δ : Type := Array Event) where
  tokens : TokenStream
  device : δ

/-- What a pass drives. The second type is that of the reasons for a pass to stop: the device fails,
or it is told of a problem of the source text. -/
class Device (δ : Type) (ε : outParam Type) where
  /-- The problem as a reason to stop. -/
  report : δ → Problem → ε
  /-- Take notice of an event. -/
  handle : Event → EStateM ε δ Unit
  /-- Watch a function that is entered with the given bound. -/
  watch : {α : Type} → Pass.Site → Nat → EStateM ε (Pass.State δ) α → EStateM ε (Pass.State δ) α :=
    fun _ _ inside => inside

/-- The journal of a pass: all events in order. -/
instance : Device (Array Event) Problem where
  report _ problem := problem
  handle event := modify fun journal => journal.push event

/-- A computation that consumes tokens and drives a device, and that may be stopped. -/
abbrev PassOn (δ ε : Type) := EStateM ε (Pass.State δ)

/-- A computation that consumes tokens and keeps a journal, and that may stop with a problem. -/
abbrev Pass := PassOn (Array Event) Problem

namespace Pass

variable {δ ε α : Type} [Device δ ε]

/-! ## Driving the device -/

/-- Let the device handle an event. -/
def emit (event : Event) : PassOn δ ε Unit := fun s =>
  match Device.handle event s.device with
  | .ok _ device => .ok () { s with device := device }
  | .error e device => .error e { s with device := device }

/-- Write lines of code. -/
def writeLines : List Line → PassOn δ ε Unit
  | [] => return
  | line :: lines => do
    emit (.line line)
    writeLines lines

/-- Write instructions. -/
def writeAll (code : List Instruction) : PassOn δ ε Unit := writeLines (code.map Line.instruction)

/-- Write one instruction. -/
def write (i : Instruction) : PassOn δ ε Unit := emit (.line (.instruction i))

/-- Make a note. -/
def note (n : Note) : PassOn δ ε Unit := emit (.note n)

/-- Enter a function with the given bound. -/
def entering (site : Site) (bound : Nat) (inside : PassOn δ ε α) : PassOn δ ε α :=
  Device.watch site bound inside

/-! ## Reading -/

/-- The current token. It is not consumed. -/
def current : PassOn δ ε Token := return (← get).tokens.current

/-- The line of the current token. -/
def line : PassOn δ ε Nat := return (← current).line

/-- The symbol ahead, if the current token is one. -/
def symbol? : PassOn δ ε (Option Symbol) := return (← current).kind.symbol?

/-- The keyword ahead, if the current token is one. -/
def keyword? : PassOn δ ε (Option Keyword) := return (← current).kind.keyword?

/-- Stop with a fault on the given line. -/
def fail (line : Nat) (fault : Fault) : PassOn δ ε α := fun s =>
  .error (Device.report s.device ⟨line, fault⟩) s

/-- Stop with a fault on the line of the current token. -/
def complain (fault : Fault) : PassOn δ ε α := do fail (← line) fault

/-- Stop because the current token is not what the grammar calls for. -/
def unexpected (what : String) : PassOn δ ε α := do complain (.expected what (← current).kind)

/-- Move to the following token. -/
def move : PassOn δ ε Unit := fun s =>
  match s.tokens.advance with
  | (none, tokens) => .ok () { s with tokens := tokens }
  | (some problem, tokens) => .error (Device.report s.device problem) { s with tokens := tokens }

/-- Consume the current token. -/
def next : PassOn δ ε Token := do
  let token ← current
  emit (.token token)
  move
  return token

/-- Consume the current token if it is the given one. -/
def accept (kind : TokenKind) : PassOn δ ε Bool := do
  if (← current).kind = kind then
    let _ ← next
    return true
  else
    return false

/-- Consume the given token, or complain. -/
def expect (kind : TokenKind) : PassOn δ ε Token := do
  if (← current).kind = kind then
    next
  else
    unexpected ("'" ++ kind.lexeme ++ "'")

/-- Consume a name, or complain. -/
def expectName : PassOn δ ε String := do
  match (← current).kind with
  | .identifier name =>
    let _ ← next
    return name
  | _ => unexpected "identifier"

/-- Whether a block ends here: at a closing brace or at the end of the input. -/
def atBlockEnd : PassOn δ ε Bool := do
  match (← current).kind with
  | .symbol .rightBrace | .eof => return true
  | _ => return false

/-- Insist on the end of the input. -/
def finish : PassOn δ ε Unit := do
  if (← current).kind = .eof then
    emit .finish
  else
    unexpected "end of input"

/-! ## Brackets -/

/-- Consume a symbol, or complain. -/
def punctuation (s : Symbol) : PassOn δ ε Unit := do
  let _ ← expect (.symbol s)

/-- What stands between two symbols. -/
def between (opening closing : Symbol) (inside : PassOn δ ε α) : PassOn δ ε α := do
  punctuation opening
  let a ← inside
  punctuation closing
  return a

/-- What stands in parentheses. -/
def parenthesized (inside : PassOn δ ε α) : PassOn δ ε α := between .leftParen .rightParen inside

/-- What stands in braces. -/
def braced (inside : PassOn δ ε α) : PassOn δ ε α := between .leftBrace .rightBrace inside

end Pass

end Jack
