import Jack.Code.Instruction
import Jack.Token.Basic
import Jack.Variable.Scope

/-!
# Events

What a compilation does to the outside, in the order in which it does it: tokens are consumed,
lines of code are written, notes on the progress are made, and the end of the unit is reached.
-/

namespace Jack

/-- A note on the progress of a compilation. -/
inductive Note where
  | compilingClass (name : String)
  | compilingSubroutine (kind : SubroutineKind) (name : String)
  | defined (v : Variable)
  /-- A name before a member stands for no variable, so it is taken for a class. -/
  | assumedClass (name : String) (line : Nat)
  deriving DecidableEq, Repr

/-- The note as a log shows it, with its level in front. -/
def Note.text (unit : String) : Note → String
  | compilingClass name => "DEBUG " ++ unit ++ ": compiling class " ++ name
  | compilingSubroutine kind name => "DEBUG " ++ unit ++ ": compiling " ++ kind.title ++ " " ++ name
  | defined v => "TRACE define " ++ v.text
  | assumedClass name line =>
    "TRACE " ++ unit ++ ":" ++ toString line ++ ": assuming \"" ++ name ++ "\" names a class"

/-- One effect of a compilation. -/
inductive Event where
  | token (t : Token)
  | line (l : Line)
  | note (n : Note)
  | finish
  deriving DecidableEq, Repr

namespace Event

/-- The line of code, if the event writes one. -/
def line? : Event → Option Line
  | line l => some l
  | _ => none

/-- The note, if the event makes one. -/
def note? : Event → Option Note
  | note n => some n
  | _ => none

/-- The token, if the event consumes one. -/
def token? : Event → Option Token
  | token t => some t
  | _ => none

end Event

end Jack
