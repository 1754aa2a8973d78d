import Jack.Code.Routine
import Jack.Pass.Basic

/-!
# Expressions

An expression is a row of terms with operators between them. All binary operators have the same
rank and are applied from left to right, so the code of each follows that of its right operand.
The code of an expression leaves one value on the stack.

The functions recurse on a number that bounds the tokens still to be read. When it is used up the
end of the input is reached, and they answer what they answer there.
-/

namespace Jack

/-- What names mean: those of the class, and of the subroutine if one has been entered. -/
structure Context where
  className : String
  classTable : Table := Table.empty
  subroutine : Option Subroutine := none

/-- The variable that a name stands for. -/
def Context.resolve? (context : Context) (name : String) : Option Variable :=
  Jack.resolve? (context.subroutine.map Subroutine.table) context.classTable name

/-- The instruction for a binary operator. -/
def binaryOperator? : Symbol → Option Instruction
  | .plus => some (.operate .add)
  | .minus => some (.operate .sub)
  | .star => some Routine.multiply.call
  | .slash => some Routine.divide.call
  | .amp => some (.operate .and)
  | .pipe => some (.operate .or)
  | .less => some (.operate .lt)
  | .greater => some (.operate .gt)
  | .equal => some (.operate .eq)
  | _ => none

/-- The instruction for an operator in front of its operand. -/
def unaryOperator? : Symbol → Option Instruction
  | .minus => some (.operate .neg)
  | .tilde => some (.operate .not)
  | _ => none

/-- The code for a keyword that stands for a value. -/
def keywordConstant? : Keyword → Option (List Instruction)
  | .true_ => some [.number 1, .operate .neg]
  | .false_ | .null => some [.number 0]
  | .this_ => some [.pushReceiver]
  | _ => none

/-- The code that builds a string: a new one, to which the characters are appended in turn. -/
def stringCode (characters : List Char) : List Instruction :=
  .number characters.length :: Routine.newString.call ::
    characters.flatMap fun c => [.number c.toNat, Routine.appendChar.call]

/-- The largest number of arguments of a call, the receiver included. -/
def maxArguments : Nat := 65535

namespace Pass

variable {δ ε : Type} [Device δ ε]

/-- The variable that a name stands for, or a complaint on the line of the name. -/
def variableNamed (context : Context) (name : String) (line : Nat) : PassOn δ ε Variable :=
  match context.resolve? name with
  | some v => return v
  | none => fail line (.unresolved name)

/-- The code of a string constant that has been consumed. -/
def stringConstant (characters : String) : PassOn δ ε Unit :=
  if characters.toList.length ≤ maxConstant then
    writeAll (stringCode characters.toList)
  else
    complain .stringTooLong

/-- What is called, and the number of values pushed before the arguments, once the leading name has
been consumed: a subroutine of this class on the current object, a method on a variable, or a
subroutine of another class. -/
def callee (context : Context) (name : String) (line : Nat) : PassOn δ ε (String × Nat) := do
  match ← symbol? with
  | some .leftParen =>
    write .pushReceiver
    return (context.className ++ "." ++ name, 1)
  | some .dot =>
    let _ ← next
    let member ← expectName
    match context.resolve? name with
    | some v =>
      write v.push
      return (v.type ++ "." ++ member, 1)
    | none =>
      note (.assumedClass name line)
      return (name ++ "." ++ member, 0)
  | _ => unexpected "'(' or '.'"

/-- A call whose leading name has been consumed. -/
def call (context : Context) (arguments : PassOn δ ε Nat) (name : String) (line : Nat) :
    PassOn δ ε Unit := do
  let (routine, implicit) ← callee context name line
  punctuation .leftParen
  let count := (← arguments) + implicit
  unless count ≤ maxArguments do
    complain .tooManyArguments
  punctuation .rightParen
  write (.call routine count)

mutual

/-- A term: a constant, a variable, an array element, a call, an expression in parentheses, or a
term with an operator in front. -/
def term (context : Context) : Nat → PassOn δ ε Unit
  | 0 => entering .term 0 (unexpected "term")
  | bound + 1 => entering .term (bound + 1) do
    let token ← current
    match token.kind with
    | .integer value _ =>
      let _ ← next
      write (.number value)
    | .string characters =>
      let _ ← next
      stringConstant characters
    | .keyword k =>
      match keywordConstant? k with
      | some code =>
        writeAll code
        let _ ← next
      | none => unexpected "term"
    | .identifier name =>
      let _ ← next
      match ← symbol? with
      | some .leftBracket =>
        let v ← variableNamed context name token.line
        let _ ← next
        write v.push
        expression context bound
        punctuation .rightBracket
        writeAll [.operate .add, .popTarget, .pushIndirect]
      | some .leftParen | some .dot =>
        entering .call bound (call context (arguments context bound) name token.line)
      | _ => write (← variableNamed context name token.line).push
    | .symbol .leftParen => parenthesized (expression context bound)
    | .symbol s =>
      match unaryOperator? s with
      | some operator =>
        let _ ← next
        term context bound
        write operator
      | none => unexpected "term"
    | .eof => unexpected "term"

/-- An expression. -/
def expression (context : Context) : Nat → PassOn δ ε Unit
  | 0 => entering .expression 0 (unexpected "term")
  | bound + 1 => entering .expression (bound + 1) do
    term context bound
    operations context bound

/-- The operators that follow a term, each with its right operand. -/
def operations (context : Context) : Nat → PassOn δ ε Unit
  | 0 => entering .operations 0 (pure ())
  | bound + 1 => entering .operations (bound + 1) do
    match (← symbol?).bind binaryOperator? with
    | some operator =>
      let _ ← next
      term context bound
      write operator
      operations context bound
    | none => return

/-- The arguments of a call, up to the closing parenthesis, and their number. -/
def arguments (context : Context) : Nat → PassOn δ ε Nat
  | 0 => entering .arguments 0 (unexpected "term")
  | bound + 1 => entering .arguments (bound + 1) do
    if (← symbol?) = some .rightParen then
      return 0
    else
      expression context bound
      moreArguments context bound 1

/-- The arguments that follow the first ones, and the number of all. -/
def moreArguments (context : Context) : Nat → Nat → PassOn δ ε Nat
  | 0, count => entering .moreArguments 0 (pure count)
  | bound + 1, count => entering .moreArguments (bound + 1) do
    if ← accept (.symbol .comma) then
      expression context bound
      unless count + 1 ≤ maxArguments do
        complain .tooManyArguments
      moreArguments context bound (count + 1)
    else
      return count

end

end Pass

end Jack
