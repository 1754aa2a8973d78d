import Jack.Proofs.Machine.Basic
import Jack.Proofs.Syntax.Code

/-!
# What programs mean

A semantics of syntax trees that knows nothing of code. It shares with the machine only the words,
the operations and what calls do.

1. An expression is evaluated strictly from left to right. All binary operators are of equal rank
   and associate to the left (`Expression.evalRest`). An evaluation changes the store at most.
2. A statement changes the frame and the store (`Ends`). It ends normally or with a return. A
   condition holds if `not` makes it zero.

A name that stands for no variable has the value zero; `Valid` trees use none as a value.
-/

namespace Jack

variable {Word : Type}

/-! ## Variables and operators -/

/-- The value of a variable. A field is a cell of the current object. -/
def Variable.value (M : Machine Word) (f : Frame Word) (st : Store Word) (v : Variable) : Word :=
  match v.kind with
  | .static => st.statics v.index
  | .field => st.memory (M.cell f.receiver v.index)
  | .argument => f.arguments v.index
  | .local_ => f.locals v.index

/-- The value of a name. -/
def Environment.value (M : Machine Word) (env : Environment) (f : Frame Word) (st : Store Word)
    (name : String) : Word :=
  match env.find? name with
  | some v => v.value M f st
  | none => M.number 0

/-- The receiver of a call, if it has one: the current object where no name stands before the
subroutine's, else the variable of that name. -/
def Environment.receiverValue (M : Machine Word) (env : Environment) (f : Frame Word)
    (st : Store Word) : Option String → List Word
  | none => [f.receiver]
  | some name =>
    match env.find? name with
    | some v => [v.value M f st]
    | none => []

/-- The value of an operator between two values. Products and quotients are computed by calls. -/
def BinaryOperator.apply (M : Machine Word) (op : BinaryOperator) (a b : Word) (st : Store Word) :
    Word × Store Word :=
  match op with
  | add => (M.binary .add a b, st)
  | sub => (M.binary .sub a b, st)
  | mul => M.call "Math.multiply" [a, b] st
  | div => M.call "Math.divide" [a, b] st
  | and => (M.binary .and a b, st)
  | or => (M.binary .or a b, st)
  | lt => (M.binary .lt a b, st)
  | gt => (M.binary .gt a b, st)
  | eq => (M.binary .eq a b, st)

/-- The value of an operator in front of a value. -/
def UnaryOperator.apply (M : Machine Word) (op : UnaryOperator) (a : Word) : Word :=
  match op with
  | neg => M.unary .neg a
  | not => M.unary .not a

/-- The value of a keyword. -/
def ValueWord.value (M : Machine Word) (f : Frame Word) : ValueWord → Word
  | true_ => M.unary .neg (M.number 1)
  | false_ | null => M.number 0
  | this_ => f.receiver

/-- Append characters to a string object, one after the other. -/
def appendChars (M : Machine Word) : List Char → Word → Store Word → Word × Store Word
  | [], text, st => (text, st)
  | c :: rest, text, st =>
    let (text, st) := M.call "String.appendChar" [text, M.number c.toNat] st
    appendChars M rest text st

/-- A new string object. -/
def newString (M : Machine Word) (characters : List Char) (st : Store Word) : Word × Store Word :=
  let (text, st) := M.call "String.new" [M.number characters.length] st
  appendChars M characters text st

/-! ## Expressions -/

section Expressions

variable (M : Machine Word) (env : Environment) (f : Frame Word)

mutual

/-- The value of a term, and the store after its evaluation. The array of an element is read before
the index is evaluated. -/
def Term.eval : Term → Store Word → Word × Store Word
  | .integer value _, st => (M.number value, st)
  | .string characters, st => newString M characters.toList st
  | .word w, st => (w.value M f, st)
  | .var name, st => (env.value M f st name, st)
  | .element name index, st =>
    let (i, st') := index.eval st
    (st'.memory (M.binary .add (env.value M f st name) i), st')
  | .call c, st => c.eval st
  | .parenthesized inner, st => inner.eval st
  | .unary op operand, st =>
    let (a, st) := operand.eval st
    (op.apply M a, st)

/-- The value of an expression, and the store after its evaluation. -/
def Expression.eval : Expression → Store Word → Word × Store Word
  | .mk first rest, st =>
    let (a, st) := first.eval st
    Expression.evalRest rest a st

/-- The value of operators and their right operands after a left operand. -/
def Expression.evalRest : List (BinaryOperator × Term) → Word → Store Word → Word × Store Word
  | [], a, st => (a, st)
  | (op, operand) :: rest, a, st =>
    let (b, st) := operand.eval st
    let (c, st) := op.apply M a b st
    Expression.evalRest rest c st

/-- The result of a call, and the store after it. The receiver is read before the arguments are
evaluated. -/
def Call.eval : Call → Store Word → Word × Store Word
  | .mk receiver name arguments, st =>
    let (values, st') := Call.evalArguments arguments st
    M.call (env.routine receiver name) (env.receiverValue M f st receiver ++ values) st'

/-- The values of arguments, and the store after their evaluation. -/
def Call.evalArguments : List Expression → Store Word → List Word × Store Word
  | [], st => ([], st)
  | e :: more, st =>
    let (v, st) := e.eval st
    let (values, st) := Call.evalArguments more st
    (v :: values, st)

end

theorem Environment.length_receiverValue (st : Store Word) (r : Option String) :
    (env.receiverValue M f st r).length = env.implicit r := by
  cases r with
  | none => rfl
  | some name =>
    simp only [Environment.receiverValue, Environment.implicit]
    cases env.find? name <;> rfl

theorem Call.length_evalArguments (arguments : List Expression) (st : Store Word) :
    (Call.evalArguments M env f arguments st).1.length = arguments.length := by
  induction arguments generalizing st with
  | nil => rfl
  | cons e more ih =>
    unfold Call.evalArguments
    exact congrArg (· + 1) (ih _)

end Expressions

/-! ## Statements -/

section Statements

variable [DecidableEq Word]

/-- The frame and the store after a variable has got a new value. -/
def Variable.assign (M : Machine Word) (v : Variable) (value : Word) (f : Frame Word)
    (st : Store Word) : Frame Word × Store Word :=
  match v.kind with
  | .static => (f, { st with statics := Function.update st.statics v.index value })
  | .field => (f, st.poke (M.cell f.receiver v.index) value)
  | .argument => ({ f with arguments := Function.update f.arguments v.index value }, st)
  | .local_ => ({ f with locals := Function.update f.locals v.index value }, st)

/-- The frame and the store after a name has got a new value. -/
def Environment.assign (M : Machine Word) (env : Environment) (name : String) (value : Word)
    (f : Frame Word) (st : Store Word) : Frame Word × Store Word :=
  match env.find? name with
  | some v => v.assign M value f st
  | none => (f, st)

section Assign

variable {M : Machine Word} {f : Frame Word} {st : Store Word} {v w : Variable} {value : Word}

theorem Variable.value_assign (M : Machine Word) (v : Variable) (value : Word) (f : Frame Word)
    (st : Store Word) : v.value M (v.assign M value f st).1 (v.assign M value f st).2 = value := by
  cases hkind : v.kind <;> simp [Variable.value, Variable.assign, Store.poke, hkind]

/-- A variable in another slot keeps its value, if different slots are different cells. -/
theorem Variable.value_assign_of_ne (hslot : (v.kind, v.index) ≠ (w.kind, w.index))
    (hcells : M.cell f.receiver w.index = M.cell f.receiver v.index → w.index = v.index) :
    w.value M (v.assign M value f st).1 (v.assign M value f st).2 = w.value M f st := by
  by_cases hkind : v.kind = w.kind
  · have hindex : w.index ≠ v.index := fun h => hslot (by rw [hkind, h])
    have hcell : M.cell f.receiver w.index ≠ M.cell f.receiver v.index := mt hcells hindex
    unfold Variable.value Variable.assign
    rw [hkind]
    cases w.kind <;> simp [Store.poke, hindex, hcell]
  · unfold Variable.value Variable.assign
    cases hv : v.kind <;> cases hw : w.kind <;> simp_all [Store.poke]

end Assign

/-- Whether a condition with this value holds. -/
def Machine.Holds (M : Machine Word) (value : Word) : Prop := M.unary .not value = M.number 0

instance (M : Machine Word) (value : Word) : Decidable (M.Holds value) :=
  inferInstanceAs (Decidable (M.unary .not value = M.number 0))

/-- How statements end. -/
inductive Outcome (Word : Type) where
  /-- The statements after them are next. -/
  | normal (f : Frame Word) (st : Store Word)
  /-- The subroutine returns a value. -/
  | returned (value : Word) (f : Frame Word) (st : Store Word)

/-- Statements in a row, run in a frame and a store, end in this way. One statement is a row of its
own. -/
inductive Ends (M : Machine Word) (env : Environment) :
    List Statement → Frame Word → Store Word → Outcome Word → Prop
  | nil {f st} : Ends M env [] f st (.normal f st)
  | next {t rest f st f' st' o} : Ends M env [t] f st (.normal f' st') →
      Ends M env rest f' st' o → Ends M env (t :: rest) f st o
  | stop {t rest f st v f' st'} : Ends M env [t] f st (.returned v f' st') →
      Ends M env (t :: rest) f st (.returned v f' st')
  | let_ {name value f st v st'} : value.eval M env f st = (v, st') →
      Ends M env [.let_ name value] f st
        (.normal (env.assign M name v f st').1 (env.assign M name v f st').2)
  /-- The address is computed before the value that is stored there. -/
  | letElement {name index value f st i st₁ v st₂} : index.eval M env f st = (i, st₁) →
      value.eval M env f st₁ = (v, st₂) →
      Ends M env [.letElement name index value] f st
        (.normal f (st₂.poke (M.binary .add (env.value M f st name) i) v))
  | ifTrue {condition yes f st c st' o} : condition.eval M env f st = (c, st') → M.Holds c →
      Ends M env yes f st' o → Ends M env [.if_ condition yes] f st o
  | ifFalse {condition yes f st c st'} : condition.eval M env f st = (c, st') → ¬ M.Holds c →
      Ends M env [.if_ condition yes] f st (.normal f st')
  | ifElseTrue {condition yes no f st c st' o} : condition.eval M env f st = (c, st') →
      M.Holds c → Ends M env yes f st' o → Ends M env [.ifElse condition yes no] f st o
  | ifElseFalse {condition yes no f st c st' o} : condition.eval M env f st = (c, st') →
      ¬ M.Holds c → Ends M env no f st' o → Ends M env [.ifElse condition yes no] f st o
  | whileFalse {condition body f st c st'} : condition.eval M env f st = (c, st') →
      ¬ M.Holds c → Ends M env [.while_ condition body] f st (.normal f st')
  | whileTrue {condition body f st c st' f₁ st₁ o} : condition.eval M env f st = (c, st') →
      M.Holds c → Ends M env body f st' (.normal f₁ st₁) →
      Ends M env [.while_ condition body] f₁ st₁ o → Ends M env [.while_ condition body] f st o
  | whileReturn {condition body f st c st' v f₁ st₁} : condition.eval M env f st = (c, st') →
      M.Holds c → Ends M env body f st' (.returned v f₁ st₁) →
      Ends M env [.while_ condition body] f st (.returned v f₁ st₁)
  | do_ {call f st v st'} : call.eval M env f st = (v, st') →
      Ends M env [.do_ call] f st (.normal f st')
  /-- Without a value, zero is returned. -/
  | returnNone {f st} : Ends M env [.return_ none] f st (.returned (M.number 0) f st)
  | returnSome {value f st v st'} : value.eval M env f st = (v, st') →
      Ends M env [.return_ (some value)] f st (.returned v f st')

end Statements

end Jack
