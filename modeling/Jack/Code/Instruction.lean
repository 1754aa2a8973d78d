/-!
# Instructions of the stack machine

The code of a unit is a list of lines, each an instruction or a comment. An instruction's text is
its mnemonic and its operands, separated by single spaces.
-/

namespace Jack

/-- The storage areas of the machine. -/
inductive Segment where
  | constant | local_ | argument | this_ | that | pointer | temp | static
  deriving DecidableEq, Repr

/-- The name of a segment. -/
def Segment.text : Segment → String
  | constant => "constant"
  | local_ => "local"
  | argument => "argument"
  | this_ => "this"
  | that => "that"
  | pointer => "pointer"
  | temp => "temp"
  | static => "static"

/-- The operations on the top of the stack. -/
inductive Operation where
  | add | sub | neg | eq | gt | lt | and | or | not
  deriving DecidableEq, Repr

/-- The mnemonic of an operation. -/
def Operation.text : Operation → String
  | add => "add"
  | sub => "sub"
  | neg => "neg"
  | eq => "eq"
  | gt => "gt"
  | lt => "lt"
  | and => "and"
  | or => "or"
  | not => "not"

/-- One instruction. -/
inductive Instruction where
  | push (segment : Segment) (index : Nat)
  | pop (segment : Segment) (index : Nat)
  | operate (operation : Operation)
  | label (name : String)
  | goto (name : String)
  /-- Jump if the popped value is not zero. -/
  | ifGoto (name : String)
  | call (name : String) (arguments : Nat)
  | function (name : String) (locals : Nat)
  | return_
  deriving DecidableEq, Repr

/-- The text of an instruction. -/
def Instruction.text : Instruction → String
  | push segment index => "push " ++ segment.text ++ " " ++ toString index
  | pop segment index => "pop " ++ segment.text ++ " " ++ toString index
  | operate operation => operation.text
  | label name => "label " ++ name
  | goto name => "goto " ++ name
  | ifGoto name => "if-goto " ++ name
  | call name arguments => "call " ++ name ++ " " ++ toString arguments
  | function name locals => "function " ++ name ++ " " ++ toString locals
  | return_ => "return"

/-- One line of code. -/
inductive Line where
  | instruction (i : Instruction)
  | comment (text : String)
  deriving DecidableEq, Repr

/-- The text of a line, with the line feed that ends it. -/
def Line.text : Line → String
  | instruction i => i.text ++ "\n"
  | comment text => "// " ++ text ++ "\n"

/-- The text of a list of lines. -/
def Line.listing (lines : List Line) : String := String.join (lines.map Line.text)

end Jack
