import Jack.Variable.Table

/-!
# Scopes

A subroutine's scope holds its arguments and locals and numbers the labels of its loops and
branches. A name is looked up in the subroutine first and in the class after that; one that is
found in neither is taken for a class.
-/

namespace Jack

/-- The three sorts of subroutines. -/
inductive SubroutineKind where
  | constructor | function | method
  deriving DecidableEq, Repr

namespace SubroutineKind

/-- The word that declares the kind. -/
def text : SubroutineKind → String
  | constructor => "constructor"
  | function => "function"
  | method => "method"

/-- The kind as a progress note names it. -/
def title : SubroutineKind → String
  | constructor => "Constructor"
  | function => "Function"
  | method => "Method"

end SubroutineKind

/-- How many loops and branches of a subroutine have been numbered. The numbers are unbounded here:
a text that exhausts 32 bits has more than four thousand million loops or branches. -/
structure Labels where
  loops : Nat := 0
  branches : Nat := 0
  deriving DecidableEq, Repr

namespace Labels

/-- Number a loop. -/
def nextLoop (labels : Labels) : Nat × Labels :=
  (labels.loops, { labels with loops := labels.loops + 1 })

/-- Number a branch. -/
def nextBranch (labels : Labels) : Nat × Labels :=
  (labels.branches, { labels with branches := labels.branches + 1 })

end Labels

/-- The scope of one subroutine. -/
structure Subroutine where
  /-- The name with the class in front. -/
  name : String
  kind : SubroutineKind
  table : Table
  labels : Labels

namespace Subroutine

/-- The hidden first argument of a method: its receiver. -/
def receiver (className : String) : Variable := Table.empty.fresh "this" className .argument

/-- The scope at the start of a subroutine. A method has its receiver as first argument. -/
def enter (className name : String) (kind : SubroutineKind) : Subroutine where
  name := className ++ "." ++ name
  kind := kind
  table := match kind with
    | .method => Table.empty.define "this" className .argument
    | .constructor | .function => Table.empty
  labels := {}

end Subroutine

/-- Look a name up in the subroutine, if there is one, and then in the class. -/
def resolve? (inner : Option Table) (outer : Table) (name : String) : Option Variable :=
  (inner.bind fun table => table.get? name).or (outer.get? name)

end Jack
