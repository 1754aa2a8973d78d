import Jack.Code.Instruction

/-!
# Fixed names and places of the machine

The library routines that generated code calls, and the registers it uses: the current object, the
target of indirect access, and one scratch cell.
-/

namespace Jack

/-- A call of a routine of the machine's library. -/
inductive Routine where
  | multiply | divide | alloc | newString | appendChar
  deriving DecidableEq, Repr

/-- The call of the routine with its fixed number of arguments. -/
def Routine.call : Routine → Instruction
  | multiply => .call "Math.multiply" 2
  | divide => .call "Math.divide" 2
  | alloc => .call "Memory.alloc" 1
  | newString => .call "String.new" 1
  | appendChar => .call "String.appendChar" 2

namespace Instruction

/-- Push a number. -/
def number (n : Nat) : Instruction := .push .constant n

/-- Push the current object. -/
def pushReceiver : Instruction := .push .pointer 0

/-- Make the popped value the current object. -/
def popReceiver : Instruction := .pop .pointer 0

/-- Make the popped value the target of indirect access. -/
def popTarget : Instruction := .pop .pointer 1

/-- Push what is stored at the target. -/
def pushIndirect : Instruction := .push .that 0

/-- Store the popped value at the target. -/
def popIndirect : Instruction := .pop .that 0

/-- Push the scratch cell. -/
def pushScratch : Instruction := .push .temp 0

/-- Store the popped value in the scratch cell. -/
def popScratch : Instruction := .pop .temp 0

end Instruction

end Jack
