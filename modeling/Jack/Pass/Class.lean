import Jack.Pass.Statement

/-!
# Classes

A unit is one class: variables first, then subroutines. A subroutine declares all its variables
before its first statement, so the number of its locals is known when its code begins.
-/

namespace Jack

/-- How a unit is to be compiled. -/
structure Options where
  /-- List the variables of the class and of each subroutine as comments. -/
  annotate : Bool := false
  /-- Refuse a name that is declared twice in one scope. -/
  strict : Bool := false
  deriving DecidableEq, Repr

/-- The kind of variables that a keyword declares in a class. -/
def classVariable? : Keyword → Option VariableKind
  | .static => some .static
  | .field => some .field
  | _ => none

/-- The kind of subroutine that a keyword declares. -/
def subroutineKind? : Keyword → Option SubroutineKind
  | .constructor => some .constructor
  | .function => some .function
  | .method => some .method
  | _ => none

/-- The first instructions of a subroutine: a constructor allocates its object, a method takes its
first argument as the current object. -/
def prologue (kind : SubroutineKind) (fields : Nat) : List Instruction :=
  match kind with
  | .constructor => [.number fields, Routine.alloc.call, .popReceiver]
  | .method => [.push .argument 0, .popReceiver]
  | .function => []

/-- A title and the variables of a table, as comments. -/
def tableListing (title : String) (table : Table) : List Line :=
  .comment title :: table.ordered.map fun v => .comment v.text

/-- Whether variables of the kind belong to the class, and not to a subroutine. -/
def VariableKind.isClassLevel : VariableKind → Bool
  | static | field => true
  | argument | local_ => false

namespace Context

/-- The table in which variables of the kind are declared, if there is one. -/
def table? (context : Context) (kind : VariableKind) : Option Table :=
  if kind.isClassLevel then some context.classTable else context.subroutine.map Subroutine.table

/-- The context with another table for variables of the kind. -/
def setTable (context : Context) (kind : VariableKind) (table : Table) : Context :=
  if kind.isClassLevel then { context with classTable := table }
  else { context with subroutine := context.subroutine.map fun s => { s with table := table } }

/-- The context inside of a subroutine, which takes the place of an earlier one. -/
def inside (context : Context) (subroutine : Subroutine) : Context :=
  { context with subroutine := some subroutine }

end Context

namespace Pass

variable {δ ε : Type} [Device δ ε]

/-! ## Variables -/

/-- A type: a primitive one or the name of a class. -/
def typeName : PassOn δ ε String := do
  match (← current).kind with
  | .keyword k =>
    if k.isType then
      let _ ← next
      return k.text
    else
      unexpected "type"
  | .identifier _ => expectName
  | _ => unexpected "type"

/-- Add a variable to the scope that its kind belongs to. -/
def declare (options : Options) (context : Context) (name type : String) (kind : VariableKind)
    (line : Nat) : PassOn δ ε Context :=
  match context.table? kind with
  | none => complain .strayDeclaration
  | some table => do
    if options.strict && table.contains name then
      fail line (.redeclared name)
    else
      note (.defined (table.fresh name type kind))
      return context.setTable kind (table.define name type kind)

/-- A name to be declared. -/
def declaredName (options : Options) (type : String) (kind : VariableKind) (context : Context) :
    PassOn δ ε Context := do
  let line ← line
  let name ← expectName
  declare options context name type kind line

/-- Names with commas between them. -/
def declaredNames (options : Options) (type : String) (kind : VariableKind) :
    Nat → Context → PassOn δ ε Context
  | 0, _ => entering .declaredNames 0 (unexpected "identifier")
  | bound + 1, context => entering .declaredNames (bound + 1) do
    let context ← declaredName options type kind context
    if ← accept (.symbol .comma) then
      declaredNames options type kind bound context
    else
      return context

/-- A declaration of variables whose leading keyword has been consumed. -/
def declaration (options : Options) (kind : VariableKind) (bound : Nat) (context : Context) :
    PassOn δ ε Context := do
  let type ← typeName
  let context ← declaredNames options type kind bound context
  punctuation .semicolon
  return context

/-- The variables of a class. -/
def classVariables (options : Options) : Nat → Context → PassOn δ ε Context
  | 0, context => entering .classVariables 0 (pure context)
  | bound + 1, context => entering .classVariables (bound + 1) do
    match (← keyword?).bind classVariable? with
    | some kind =>
      let _ ← next
      let context ← declaration options kind bound context
      classVariables options bound context
    | none => return context

/-- The locals of a subroutine. -/
def localVariables (options : Options) : Nat → Context → PassOn δ ε Context
  | 0, context => entering .localVariables 0 (pure context)
  | bound + 1, context => entering .localVariables (bound + 1) do
    if ← accept (.keyword .var) then
      let context ← declaration options .local_ bound context
      localVariables options bound context
    else
      return context

/-- Parameters with commas between them. -/
def parameters (options : Options) : Nat → Context → PassOn δ ε Context
  | 0, _ => entering .parameters 0 (unexpected "type")
  | bound + 1, context => entering .parameters (bound + 1) do
    let type ← typeName
    let context ← declaredName options type .argument context
    if ← accept (.symbol .comma) then
      parameters options bound context
    else
      return context

/-- The parameters of a subroutine, up to the closing parenthesis. -/
def parameterList (options : Options) (bound : Nat) (context : Context) : PassOn δ ε Context := do
  if (← symbol?) = some .rightParen then
    return context
  else
    parameters options bound context

/-! ## Subroutines -/

/-- List the variables of a table as comments, if the options ask for it. -/
def showTable (options : Options) (title : String) (table : Table) : PassOn δ ε Unit :=
  if options.annotate then writeLines (tableListing title table) else return

/-- Start the scope of a subroutine. The receiver of a method is noted as a definition. -/
def enter (className name : String) (kind : SubroutineKind) : PassOn δ ε Subroutine := do
  if kind = .method then
    note (.defined (Subroutine.receiver className))
  let subroutine := Subroutine.enter className name kind
  note (.compilingSubroutine kind subroutine.name)
  return subroutine

/-- The statements of a subroutine, after the code that every subroutine of its kind begins with. -/
def body (options : Options) (context : Context) (bound : Nat) : PassOn δ ε Unit := do
  let subroutine ← scope context
  write (.function subroutine.name (subroutine.table.count .local_))
  showTable options (subroutine.kind.text ++ " " ++ subroutine.name) subroutine.table
  writeAll (prologue subroutine.kind (context.classTable.count .field))
  let _ ← statements context bound subroutine.labels

/-- A subroutine whose leading keyword has been consumed. -/
def subroutine (options : Options) (context : Context) (bound : Nat) (kind : SubroutineKind) :
    PassOn δ ε Unit := do
  unless ← accept (.keyword .void) do
    let _ ← typeName
  let name ← expectName
  let entered ← enter context.className name kind
  let context ← parenthesized (parameterList options bound (context.inside entered))
  braced do
    let context ← localVariables options bound context
    body options context bound

/-- The subroutines of a class. -/
def subroutines (options : Options) (context : Context) : Nat → PassOn δ ε Unit
  | 0 => entering .subroutines 0 (pure ())
  | bound + 1 => entering .subroutines (bound + 1) do
    match (← keyword?).bind subroutineKind? with
    | some kind =>
      let _ ← next
      subroutine options context bound kind
      subroutines options context bound
    | none => return

/-! ## The unit -/

/-- A class. -/
def classDeclaration (options : Options) (bound : Nat) : PassOn δ ε Unit := do
  keyword .class_
  let className ← expectName
  note (.compilingClass className)
  braced do
    let context ← classVariables options bound { className }
    showTable options ("class " ++ className) context.classTable
    subroutines options context bound

/-- A class, which has to span the whole input. -/
def compilationUnit (options : Options) (bound : Nat) : PassOn δ ε Unit := do
  classDeclaration options bound
  finish

end Pass

end Jack
