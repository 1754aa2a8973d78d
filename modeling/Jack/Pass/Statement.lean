import Jack.Code.Label
import Jack.Pass.Expression

/-!
# Statements

The code of a statement leaves the stack as it found it. Loops and branches take a number each, in
the order in which they start; the numbers given out so far are passed along as `Labels`.
-/

namespace Jack

namespace Pass

variable {δ ε : Type} [Device δ ε]

/-- The subroutine being compiled, or a complaint that there is none. -/
def scope (context : Context) : PassOn δ ε Subroutine :=
  match context.subroutine with
  | some subroutine => return subroutine
  | none => complain .strayStatement

/-- The instruction text of a label of the subroutine being compiled. -/
def label (context : Context) (mark : Mark) (number : Nat) : PassOn δ ε String :=
  return (Label.mk (← scope context).name mark number).text

/-- Consume a keyword, or complain. -/
def keyword (k : Keyword) : PassOn δ ε Unit := do
  let _ ← expect (.keyword k)

/-- Skip the code that follows if the condition in parentheses is false. -/
def condition (context : Context) (bound : Nat) (target : String) : PassOn δ ε Unit := do
  parenthesized (expression context bound)
  writeAll [.operate .not, .ifGoto target]

/-- An assignment to a variable or to an array element. The address of an element is kept on the
stack until the value has been computed, because that may use the indirect register itself. -/
def letStatement (context : Context) (bound : Nat) : PassOn δ ε Unit := do
  keyword .let_
  let line ← line
  let name ← expectName
  let v ← variableNamed context name line
  if ← accept (.symbol .leftBracket) then
    write v.push
    expression context bound
    punctuation .rightBracket
    write (.operate .add)
    punctuation .equal
    expression context bound
    writeAll [.popScratch, .popTarget, .pushScratch, .popIndirect]
  else
    punctuation .equal
    expression context bound
    write v.pop
  punctuation .semicolon

/-- A call whose result is dropped. -/
def doStatement (context : Context) (bound : Nat) : PassOn δ ε Unit := do
  keyword .do_
  let line ← line
  let name ← expectName
  entering .call bound (call context (arguments context bound) name line)
  write .popScratch
  punctuation .semicolon

/-- A return; without an expression it returns zero. -/
def returnStatement (context : Context) (bound : Nat) : PassOn δ ε Unit := do
  keyword .return_
  if (← symbol?) = some .semicolon then
    write (.number 0)
  else
    expression context bound
  punctuation .semicolon
  write .return_

mutual

/-- Statements up to the end of their block. -/
def statements (context : Context) : Nat → Labels → PassOn δ ε Labels
  | 0, labels => entering .statements 0 (pure labels)
  | bound + 1, labels => entering .statements (bound + 1) do
    if ← atBlockEnd then
      return labels
    else
      let labels ← statement context bound labels
      statements context bound labels

/-- One statement, told by its first keyword. -/
def statement (context : Context) : Nat → Labels → PassOn δ ε Labels
  | 0, _ => entering .statement 0 (unexpected "statement")
  | bound + 1, labels => entering .statement (bound + 1) do
    match ← keyword? with
    | some .let_ =>
      letStatement context bound
      return labels
    | some .if_ => ifStatement context bound labels
    | some .while_ => whileStatement context bound labels
    | some .do_ =>
      doStatement context bound
      return labels
    | some .return_ =>
      returnStatement context bound
      return labels
    | _ => unexpected "statement"

/-- A branch, with or without an alternative. -/
def ifStatement (context : Context) : Nat → Labels → PassOn δ ε Labels
  | 0, _ => entering .ifStatement 0 (unexpected "'if'")
  | bound + 1, labels => entering .ifStatement (bound + 1) do
    keyword .if_
    let _ ← scope context
    let (number, labels) := labels.nextBranch
    let ifFalse ← label context .ifFalse number
    let ifEnd ← label context .ifEnd number
    condition context bound ifFalse
    let labels ← braced (statements context bound labels)
    if ← accept (.keyword .else_) then
      writeAll [.goto ifEnd, .label ifFalse]
      let labels ← braced (statements context bound labels)
      write (.label ifEnd)
      return labels
    else
      write (.label ifFalse)
      return labels

/-- A loop. -/
def whileStatement (context : Context) : Nat → Labels → PassOn δ ε Labels
  | 0, _ => entering .whileStatement 0 (unexpected "'while'")
  | bound + 1, labels => entering .whileStatement (bound + 1) do
    keyword .while_
    let _ ← scope context
    let (number, labels) := labels.nextLoop
    let whileExp ← label context .whileExp number
    let whileEnd ← label context .whileEnd number
    write (.label whileExp)
    condition context bound whileEnd
    let labels ← braced (statements context bound labels)
    writeAll [.goto whileExp, .label whileEnd]
    return labels

end

end Pass

end Jack
