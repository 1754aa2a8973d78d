import Jack.Code.Instruction

/-!
# Labels

A label belongs to a subroutine and to one of its numbered loops or branches. Its text is the
subroutine's name, a dollar sign, a mark and the number.
-/

namespace Jack

/-- The places in a loop or a branch that code jumps to. -/
inductive Mark where
  | whileExp | whileEnd | ifFalse | ifEnd
  deriving DecidableEq, Repr

/-- The text of a mark. -/
def Mark.text : Mark → String
  | whileExp => "WHILE_EXP"
  | whileEnd => "WHILE_END"
  | ifFalse => "IF_FALSE"
  | ifEnd => "IF_END"

/-- A place in a subroutine. -/
structure Label where
  subroutine : String
  mark : Mark
  number : Nat
  deriving DecidableEq, Repr

/-- The text of a label. -/
def Label.text (label : Label) : String :=
  label.subroutine ++ "$" ++ label.mark.text ++ toString label.number

end Jack
