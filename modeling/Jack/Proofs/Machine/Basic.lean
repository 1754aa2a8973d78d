import Mathlib.Logic.Function.Basic
import Mathlib.Logic.Relation
import Jack.Code.Instruction

/-!
# The stack machine

A machine for the code of one subroutine. Everything that the code does not settle is a parameter:
the words, the nine operations, how an address is moved, and what a called subroutine does.

1. `Frame` is what belongs to the running subroutine: its locals, its arguments and the current
   object. `Store` is what it shares with all others: the statics of its class and the memory.
2. A call takes its arguments off the stack and pushes one result. It may change the store and the
   scratch cells, and nothing else.
3. `Machine.perform` is the effect of an instruction that does not jump, `Machine.exec` that of
   several ones in a row; `Machine.step` is a step in a program, where a jump looks for its label.
4. `Stands` places code in a program, and `Machine.reaches_of_exec` runs through code that does not
   jump, wherever it stands.
-/

namespace Jack

/-- What a subroutine shares with all others. -/
structure Store (Word : Type) where
  statics : Nat → Word
  memory : Word → Word

/-- The store with a new word at an address. -/
def Store.poke {Word : Type} [DecidableEq Word] (st : Store Word) (address value : Word) :
    Store Word :=
  { st with memory := Function.update st.memory address value }

/-- What belongs to the running subroutine. -/
structure Frame (Word : Type) where
  locals : Nat → Word
  arguments : Nat → Word
  /-- The current object, `pointer 0`. -/
  receiver : Word

/-- The parameters of a machine. -/
structure Machine (Word : Type) where
  /-- The word of a constant. -/
  number : Nat → Word
  /-- The address a number of cells after the given one. -/
  cell : Word → Nat → Word
  cell_zero : ∀ address, cell address 0 = address
  /-- The operations on one value. -/
  unary : Operation → Word → Word
  /-- The operations on two values. -/
  binary : Operation → Word → Word → Word
  /-- The result of a call, and the store after it. -/
  call : String → List Word → Store Word → Word × Store Word
  /-- The scratch cells after a call. -/
  scratch : String → List Word → Store Word → (Nat → Word) → Nat → Word

namespace Machine

/-- A state of the machine. -/
structure State (Word : Type) where
  /-- The values pushed and not yet popped, the last one first. -/
  stack : List Word
  frame : Frame Word
  store : Store Word
  /-- The address behind `that`, `pointer 1`. -/
  target : Word
  /-- The scratch cells. -/
  temp : Nat → Word

variable {Word : Type} [DecidableEq Word] (M : Machine Word)

/-! ## Instructions that do not jump -/

/-- The value in a segment. There are two pointers. -/
def load (s : State Word) : Segment → Nat → Option Word
  | .constant, i => some (M.number i)
  | .local_, i => some (s.frame.locals i)
  | .argument, i => some (s.frame.arguments i)
  | .this_, i => some (s.store.memory (M.cell s.frame.receiver i))
  | .that, i => some (s.store.memory (M.cell s.target i))
  | .pointer, 0 => some s.frame.receiver
  | .pointer, 1 => some s.target
  | .pointer, _ + 2 => none
  | .temp, i => some (s.temp i)
  | .static, i => some (s.store.statics i)

/-- The state with a new value in a segment. A constant cannot be changed. -/
def save (value : Word) (s : State Word) : Segment → Nat → Option (State Word)
  | .constant, _ => none
  | .local_, i =>
    some { s with frame := { s.frame with locals := Function.update s.frame.locals i value } }
  | .argument, i =>
    some { s with frame := { s.frame with arguments := Function.update s.frame.arguments i value } }
  | .this_, i => some { s with store := s.store.poke (M.cell s.frame.receiver i) value }
  | .that, i => some { s with store := s.store.poke (M.cell s.target i) value }
  | .pointer, 0 => some { s with frame := { s.frame with receiver := value } }
  | .pointer, 1 => some { s with target := value }
  | .pointer, _ + 2 => none
  | .temp, i => some { s with temp := Function.update s.temp i value }
  | .static, i =>
    some { s with store := { s.store with statics := Function.update s.store.statics i value } }

/-- The stack after an operation. -/
def operate (operation : Operation) (stack : List Word) : Option (List Word) :=
  match operation, stack with
  | .neg, a :: rest => some (M.unary .neg a :: rest)
  | .not, a :: rest => some (M.unary .not a :: rest)
  | .add, b :: a :: rest | .sub, b :: a :: rest | .eq, b :: a :: rest | .gt, b :: a :: rest
  | .lt, b :: a :: rest | .and, b :: a :: rest | .or, b :: a :: rest =>
    some (M.binary operation a b :: rest)
  | _, _ => none

/-- The state after a call with the topmost values, pushed in order, as arguments. -/
def invoke (name : String) (count : Nat) (s : State Word) : Option (State Word) :=
  let arguments := (s.stack.take count).reverse
  if count ≤ s.stack.length then
    some { s with
      stack := (M.call name arguments s.store).1 :: s.stack.drop count
      store := (M.call name arguments s.store).2
      temp := M.scratch name arguments s.store s.temp }
  else none

/-- The effect of an instruction that does not jump. A label has none. -/
def perform : Instruction → State Word → Option (State Word)
  | .push segment i, s => (M.load s segment i).map fun v => { s with stack := v :: s.stack }
  | .pop segment i, s =>
    match s.stack with
    | [] => none
    | v :: rest => M.save v { s with stack := rest } segment i
  | .operate operation, s =>
    (M.operate operation s.stack).map fun stack => { s with stack := stack }
  | .call name count, s => M.invoke name count s
  | .label _, s => some s
  | .goto _, _ | .ifGoto _, _ | .function _ _, _ | .return_, _ => none

/-- The effect of instructions in a row. -/
def exec : List Instruction → State Word → Option (State Word)
  | [], s => some s
  | i :: rest, s => (M.perform i s).bind (exec rest)

theorem exec_append (first rest : List Instruction) (s : State Word) :
    M.exec (first ++ rest) s = (M.exec first s).bind (M.exec rest) := by
  induction first generalizing s with
  | nil => rfl
  | cons i first ih =>
    show (M.perform i s).bind (M.exec (first ++ rest)) =
      ((M.perform i s).bind (M.exec first)).bind (M.exec rest)
    rw [Option.bind_assoc]
    congr 1
    funext s'
    exact ih s'

end Machine

/-! ## Programs -/

/-- The code stands in the program, from the given place on. -/
def Stands (program : List Instruction) (place : Nat) (code : List Instruction) : Prop :=
  ∃ before after, program = before ++ code ++ after ∧ before.length = place

section Stands

variable {program code rest : List Instruction} {place : Nat} {i : Instruction}

theorem Stands.left (h : Stands program place (code ++ rest)) : Stands program place code := by
  obtain ⟨before, after, rfl, rfl⟩ := h
  exact ⟨before, rest ++ after, by simp, rfl⟩

theorem Stands.right (h : Stands program place (code ++ rest)) :
    Stands program (place + code.length) rest := by
  obtain ⟨before, after, rfl, rfl⟩ := h
  exact ⟨before ++ code, after, by simp, by simp⟩

theorem Stands.head (h : Stands program place (i :: rest)) : program[place]? = some i := by
  obtain ⟨before, after, rfl, rfl⟩ := h
  simp

theorem Stands.tail (h : Stands program place (i :: rest)) : Stands program (place + 1) rest :=
  Stands.right (show Stands program place ([i] ++ rest) from h)

end Stands

namespace Machine

variable {Word : Type} [DecidableEq Word] (M : Machine Word)

/-- A step in a program: the number of the next instruction, and the state. A jump goes to the first
label of its name. -/
def step (program : List Instruction) : Nat × State Word → Option (Nat × State Word)
  | (pc, s) =>
    match program[pc]? with
    | none => none
    | some (.goto name) => (program.idxOf? (.label name)).map (·, s)
    | some (.ifGoto name) =>
      match s.stack with
      | [] => none
      | v :: rest =>
        if v = M.number 0 then some (pc + 1, { s with stack := rest })
        else (program.idxOf? (.label name)).map (·, { s with stack := rest })
    | some i => (M.perform i s).map (pc + 1, ·)

/-- From one place in a program steps lead to another. -/
def Reaches (program : List Instruction) : Nat × State Word → Nat × State Word → Prop :=
  Relation.ReflTransGen fun a b => M.step program a = some b

theorem step_of_perform {program : List Instruction} {pc : Nat} {i : Instruction}
    {s s' : State Word} (hi : program[pc]? = some i) (h : M.perform i s = some s') :
    M.step program (pc, s) = some (pc + 1, s') := by
  simp only [step, hi]
  cases i with
  | goto name => cases h
  | ifGoto name => cases h
  | _ => simp only [h, Option.map_some]

theorem step_goto {program : List Instruction} {pc target : Nat} {name : String} (s : State Word)
    (hi : program[pc]? = some (.goto name)) (h : program.idxOf? (.label name) = some target) :
    M.step program (pc, s) = some (target, s) := by
  simp only [step, hi, h, Option.map_some]

/-- A conditional jump that is not taken. -/
theorem step_ifGoto_zero {program : List Instruction} {pc : Nat} {name : String} {s : State Word}
    {rest : List Word} (hi : program[pc]? = some (.ifGoto name))
    (hs : s.stack = M.number 0 :: rest) :
    M.step program (pc, s) = some (pc + 1, { s with stack := rest }) := by
  simp only [step, hi, hs, if_true]

/-- A conditional jump that is taken. -/
theorem step_ifGoto_ne {program : List Instruction} {pc target : Nat} {name : String}
    {s : State Word} {v : Word} {rest : List Word} (hi : program[pc]? = some (.ifGoto name))
    (hs : s.stack = v :: rest) (hv : v ≠ M.number 0)
    (h : program.idxOf? (.label name) = some target) :
    M.step program (pc, s) = some (target, { s with stack := rest }) := by
  simp only [step, hi, hs, if_neg hv, h, Option.map_some]

/-- **Instructions in a row.** Wherever they stand, a program runs through them. -/
theorem reaches_of_exec {program code : List Instruction} {place : Nat} {s s' : State Word}
    (hcode : Stands program place code) (h : M.exec code s = some s') :
    M.Reaches program (place, s) (place + code.length, s') := by
  induction code generalizing place s with
  | nil =>
    obtain rfl := Option.some.inj h
    exact Relation.ReflTransGen.refl
  | cons i code ih =>
    obtain ⟨s₁, hi, hrest⟩ := Option.bind_eq_some_iff.mp h
    have hlater := ih hcode.tail hrest
    rw [Nat.add_right_comm] at hlater
    exact Relation.ReflTransGen.head (M.step_of_perform hcode.head hi) hlater

end Machine

end Jack
