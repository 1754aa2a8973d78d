import Jack.Pass.Class
import Jack.Proofs.Syntax.Scope

/-!
# The code of a syntax tree

The translation of a tree to instructions, by recursion on the tree. It knows nothing of tokens,
tables or passes:

1. the code of an expression pushes the operands from left to right and applies every operator
   right after its right operand;
2. the code of a statement takes the numbers for its labels from `Labels`, and `after` gives the
   numbers that are left for what follows;
3. the code of a subroutine starts with its name, the number of its locals and what its kind calls
   for; the code of a class is that of its subroutines, one after the other.

A name that stands for no variable has no code; `Valid` trees use none as a value.
-/

namespace Jack

/-! ## Expressions -/

/-- The instruction for an operator between two terms. -/
def BinaryOperator.code : BinaryOperator → Instruction
  | add => .operate .add
  | sub => .operate .sub
  | mul => .call "Math.multiply" 2
  | div => .call "Math.divide" 2
  | and => .operate .and
  | or => .operate .or
  | lt => .operate .lt
  | gt => .operate .gt
  | eq => .operate .eq

/-- The instruction for an operator in front of a term. -/
def UnaryOperator.code : UnaryOperator → Instruction
  | neg => .operate .neg
  | not => .operate .not

/-- The code of a keyword that stands for a value. -/
def ValueWord.code : ValueWord → List Instruction
  | true_ => [.push .constant 1, .operate .neg]
  | false_ | null => [.push .constant 0]
  | this_ => [.push .pointer 0]

namespace Environment

/-- The code that reads a variable. -/
def read (env : Environment) (name : String) : List Instruction :=
  match env.find? name with
  | some v => [.push v.kind.segment v.index]
  | none => []

/-- The code that writes a variable. -/
def write (env : Environment) (name : String) : List Instruction :=
  match env.find? name with
  | some v => [.pop v.kind.segment v.index]
  | none => []

theorem read_of_find? {env : Environment} {name : String} {v : Variable}
    (h : env.find? name = some v) : env.read name = [v.push] := by
  unfold read
  rw [h]
  rfl

theorem write_of_find? {env : Environment} {name : String} {v : Variable}
    (h : env.find? name = some v) : env.write name = [v.pop] := by
  unfold write
  rw [h]
  rfl

/-- The code that pushes the receiver of a call: the current object where no name stands before
the subroutine's, else the variable of that name. A class is no receiver. -/
def receiver (env : Environment) : Option String → List Instruction
  | none => [.push .pointer 0]
  | some name => env.read name

/-- The full name of a called subroutine: after the own class, the type of the variable, or the
class that is named. -/
def routine (env : Environment) : Option String → String → String
  | none, name => env.className ++ "." ++ name
  | some receiver, name =>
    match env.find? receiver with
    | some v => v.type ++ "." ++ name
    | none => receiver ++ "." ++ name

/-- The number of values that a call pushes before its arguments. -/
def implicit (env : Environment) : Option String → Nat
  | none => 1
  | some receiver => if (env.find? receiver).isSome then 1 else 0

end Environment

/-- The code of a string constant. -/
def stringText (characters : List Char) : List Instruction :=
  .push .constant characters.length :: .call "String.new" 1 ::
    characters.flatMap fun c => [.push .constant c.toNat, .call "String.appendChar" 2]

section Expressions

variable (env : Environment)

mutual

/-- The code of a term. -/
def Term.code : Term → List Instruction
  | .integer value _ => [.push .constant value]
  | .string characters => stringText characters.toList
  | .word w => w.code
  | .var name => env.read name
  | .element name index =>
    env.read name ++ index.code ++ [.operate .add, .pop .pointer 1, .push .that 0]
  | .call c => c.code
  | .parenthesized inner => inner.code
  | .unary operator operand => operand.code ++ [operator.code]

/-- The code of an expression. -/
def Expression.code : Expression → List Instruction
  | .mk first rest => first.code ++ Expression.restCode rest

/-- The code of operators and their right operands, for a left operand that has been pushed. -/
def Expression.restCode : List (BinaryOperator × Term) → List Instruction
  | [] => []
  | (operator, operand) :: rest => operand.code ++ operator.code :: Expression.restCode rest

/-- The code of a call. -/
def Call.code : Call → List Instruction
  | .mk receiver name arguments =>
    env.receiver receiver ++ Call.argumentCode arguments ++
      [.call (env.routine receiver name) (env.implicit receiver + arguments.length)]

/-- The code of arguments. -/
def Call.argumentCode : List Expression → List Instruction
  | [] => []
  | e :: more => e.code ++ Call.argumentCode more

end

end Expressions

/-! ## Statements -/

/-- The text of a label in the code of a subroutine. -/
def Environment.label (env : Environment) (mark : String) (number : Nat) : String :=
  env.subroutine ++ "$" ++ mark ++ toString number

mutual

/-- The numbers left for labels after a statement. -/
def Statement.after : Statement → Labels → Labels
  | .if_ _ yes, n => Statement.blockAfter yes { n with branches := n.branches + 1 }
  | .ifElse _ yes no, n =>
    Statement.blockAfter no (Statement.blockAfter yes { n with branches := n.branches + 1 })
  | .while_ _ body, n => Statement.blockAfter body { n with loops := n.loops + 1 }
  | .let_ _ _, n | .letElement _ _ _, n | .do_ _, n | .return_ _, n => n

/-- The numbers left for labels after statements in a row. -/
def Statement.blockAfter : List Statement → Labels → Labels
  | [], n => n
  | s :: rest, n => Statement.blockAfter rest (s.after n)

end

section Statements

variable (env : Environment)

mutual

/-- The code of a statement. -/
def Statement.code : Statement → Labels → List Instruction
  | .let_ name value, _ => value.code env ++ env.write name
  | .letElement name index value, _ =>
    env.read name ++ index.code env ++ [.operate .add] ++ value.code env ++
      [.pop .temp 0, .pop .pointer 1, .push .temp 0, .pop .that 0]
  | .if_ condition yes, n =>
    condition.code env ++ [.operate .not, .ifGoto (env.label "IF_FALSE" n.branches)] ++
      Statement.blockCode yes { n with branches := n.branches + 1 } ++
      [.label (env.label "IF_FALSE" n.branches)]
  | .ifElse condition yes no, n =>
    condition.code env ++ [.operate .not, .ifGoto (env.label "IF_FALSE" n.branches)] ++
      Statement.blockCode yes { n with branches := n.branches + 1 } ++
      [.goto (env.label "IF_END" n.branches), .label (env.label "IF_FALSE" n.branches)] ++
      Statement.blockCode no
        (Statement.blockAfter yes { n with branches := n.branches + 1 }) ++
      [.label (env.label "IF_END" n.branches)]
  | .while_ condition body, n =>
    [.label (env.label "WHILE_EXP" n.loops)] ++ condition.code env ++
      [.operate .not, .ifGoto (env.label "WHILE_END" n.loops)] ++
      Statement.blockCode body { n with loops := n.loops + 1 } ++
      [.goto (env.label "WHILE_EXP" n.loops), .label (env.label "WHILE_END" n.loops)]
  | .do_ call, _ => call.code env ++ [.pop .temp 0]
  | .return_ none, _ => [.push .constant 0, .return_]
  | .return_ (some value), _ => value.code env ++ [.return_]

/-- The code of statements in a row. -/
def Statement.blockCode : List Statement → Labels → List Instruction
  | [], _ => []
  | s :: rest, n => s.code n ++ Statement.blockCode rest (s.after n)

end

end Statements

/-! ## Declarations -/

namespace SubroutineDec

/-- What the code of a subroutine starts with, after the number of its locals: a constructor
allocates one cell for each field, a method takes its first argument as the current object. The
numbers of fields and of locals are those that 16 bits hold. -/
def entry (c : ClassDec) (d : SubroutineDec) : List Instruction :=
  match d.kind with
  | .constructor =>
    [.push .constant (wrap16 (c.declarations.countP (·.kind = .field))), .call "Memory.alloc" 1,
      .pop .pointer 0]
  | .method => [.push .argument 0, .pop .pointer 0]
  | .function => []

/-- The code of a subroutine's statements. -/
def bodyCode (c : ClassDec) (d : SubroutineDec) : List Instruction :=
  Statement.blockCode (d.environment c) d.body {}

/-- The code of a subroutine. -/
def code (c : ClassDec) (d : SubroutineDec) : List Instruction :=
  .function (c.name ++ "." ++ d.name) (wrap16 d.localVariables.length) ::
    (d.entry c ++ d.bodyCode c)

end SubroutineDec

/-- The code of a class. -/
def ClassDec.code (c : ClassDec) : List Instruction :=
  c.subroutines.flatMap (SubroutineDec.code c)

/-! ## Lines

The same code with the comments that list the variables, where they are wanted. -/

/-- The lines of a subroutine. -/
def SubroutineDec.lines (annotate : Bool) (c : ClassDec) (d : SubroutineDec) : List Line :=
  .instruction (.function (c.name ++ "." ++ d.name) (wrap16 d.localVariables.length)) ::
    ((if annotate then
        tableListing (d.kind.text ++ " " ++ (c.name ++ "." ++ d.name)) (tableOf (d.scope c.name))
      else []) ++
      (d.entry c ++ d.bodyCode c).map .instruction)

/-- The lines of a class. -/
def ClassDec.lines (annotate : Bool) (c : ClassDec) : List Line :=
  (if annotate then tableListing ("class " ++ c.name) (tableOf c.declarations) else []) ++
    c.subroutines.flatMap (SubroutineDec.lines annotate c)

/-- Without comments the lines are the code. -/
theorem ClassDec.lines_false (c : ClassDec) : c.lines false = c.code.map .instruction := by
  unfold lines code
  rw [List.map_flatMap]
  rfl

/-- The instruction on a line. -/
def Line.instruction? : Line → Option Instruction
  | .instruction i => some i
  | .comment _ => none

theorem filterMap_instruction (code : List Instruction) :
    (code.map Line.instruction).filterMap Line.instruction? = code := by
  rw [List.filterMap_map]
  exact List.filterMap_some

/-- A listing of variables holds comments only. -/
theorem filterMap_tableListing (title : String) (table : Table) :
    (tableListing title table).filterMap Line.instruction? = [] := by
  simp [tableListing, Line.instruction?]

theorem SubroutineDec.filterMap_lines (annotate : Bool) (c : ClassDec) (d : SubroutineDec) :
    (d.lines annotate c).filterMap Line.instruction? = d.code c := by
  unfold lines code
  rw [List.filterMap_cons, List.filterMap_append, filterMap_instruction]
  cases annotate with
  | true =>
    rw [if_pos rfl, filterMap_tableListing, List.nil_append]
    rfl
  | false => rfl

/-- The instructions on the lines of a class are its code. -/
theorem ClassDec.filterMap_lines (annotate : Bool) (c : ClassDec) :
    (c.lines annotate).filterMap Line.instruction? = c.code := by
  unfold lines code
  rw [List.filterMap_append, List.filterMap_flatMap]
  simp only [SubroutineDec.filterMap_lines]
  cases annotate with
  | true => rw [if_pos rfl, filterMap_tableListing, List.nil_append]
  | false => rfl

end Jack
