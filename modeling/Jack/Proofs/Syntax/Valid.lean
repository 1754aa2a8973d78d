import Mathlib.Data.List.Nodup
import Jack.Proofs.Syntax.Code

/-!
# Conditions on a syntax tree

What a program has to satisfy beyond the grammar:

1. every name used as a value, as the array of an element or as the target of a `let` stands for a
   variable;
2. a string has at most `maxConstant` characters;
3. a call has at most `maxArguments` arguments, the receiver included.

`Distinct` is the further condition that no scope declares a name twice. The conditions of a class
can be checked by evaluation.
-/

namespace Jack

section Expressions

variable (env : Environment)

mutual

/-- The conditions on a term. -/
def Term.Valid : Term → Prop
  | .integer _ _ | .word _ => True
  | .string characters => characters.toList.length ≤ maxConstant
  | .var name => env.Declares name
  | .element name index => env.Declares name ∧ index.Valid
  | .call c => c.Valid
  | .parenthesized inner => inner.Valid
  | .unary _ operand => operand.Valid

/-- The conditions on an expression. -/
def Expression.Valid : Expression → Prop
  | .mk first rest => first.Valid ∧ Expression.RestValid rest

/-- The conditions on right operands. -/
def Expression.RestValid : List (BinaryOperator × Term) → Prop
  | [] => True
  | (_, operand) :: rest => operand.Valid ∧ Expression.RestValid rest

/-- The conditions on a call. -/
def Call.Valid : Call → Prop
  | .mk receiver _ arguments =>
    Call.ArgumentsValid arguments ∧ env.implicit receiver + arguments.length ≤ maxArguments

/-- The conditions on arguments. -/
def Call.ArgumentsValid : List Expression → Prop
  | [] => True
  | e :: more => e.Valid ∧ Call.ArgumentsValid more

end

mutual

/-- The conditions on a statement. -/
def Statement.Valid : Statement → Prop
  | .let_ name value => env.Declares name ∧ value.Valid env
  | .letElement name index value => env.Declares name ∧ index.Valid env ∧ value.Valid env
  | .if_ condition yes => condition.Valid env ∧ Statement.BlockValid yes
  | .ifElse condition yes no =>
    condition.Valid env ∧ Statement.BlockValid yes ∧ Statement.BlockValid no
  | .while_ condition body => condition.Valid env ∧ Statement.BlockValid body
  | .do_ call => call.Valid env
  | .return_ none => True
  | .return_ (some value) => value.Valid env

/-- The conditions on statements in a row. -/
def Statement.BlockValid : List Statement → Prop
  | [] => True
  | s :: rest => s.Valid ∧ Statement.BlockValid rest

end

end Expressions

/-- The conditions on the statements of a subroutine. -/
def SubroutineDec.Valid (c : ClassDec) (d : SubroutineDec) : Prop :=
  Statement.BlockValid (d.environment c) d.body

/-- The conditions on a class. -/
def ClassDec.Valid (c : ClassDec) : Prop := ∀ d ∈ c.subroutines, d.Valid c

/-! ## Checks

The conditions are decidable, by the same recursion. -/

instance (env : Environment) (name : String) : Decidable (env.Declares name) :=
  inferInstanceAs (Decidable ((env.find? name).isSome = true))

section Checks

variable (env : Environment)

mutual

/-- The conditions on a term can be checked. -/
def Term.decideValid : (t : Term) → Decidable (t.Valid env)
  | .integer _ _ | .word _ => isTrue trivial
  | .string characters => inferInstanceAs (Decidable (characters.toList.length ≤ maxConstant))
  | .var name => inferInstanceAs (Decidable (env.Declares name))
  | .element name index =>
    have := index.decideValid
    inferInstanceAs (Decidable (env.Declares name ∧ index.Valid env))
  | .call c => c.decideValid
  | .parenthesized inner => inner.decideValid
  | .unary _ operand => operand.decideValid

/-- The conditions on an expression can be checked. -/
def Expression.decideValid : (e : Expression) → Decidable (e.Valid env)
  | .mk first rest =>
    have := first.decideValid
    have := Expression.decideRestValid rest
    inferInstanceAs (Decidable (first.Valid env ∧ Expression.RestValid env rest))

/-- The conditions on right operands can be checked. -/
def Expression.decideRestValid :
    (rest : List (BinaryOperator × Term)) → Decidable (Expression.RestValid env rest)
  | [] => isTrue trivial
  | (_, operand) :: rest =>
    have := operand.decideValid
    have := Expression.decideRestValid rest
    inferInstanceAs (Decidable (operand.Valid env ∧ Expression.RestValid env rest))

/-- The conditions on a call can be checked. -/
def Call.decideValid : (c : Call) → Decidable (c.Valid env)
  | .mk receiver _ arguments =>
    have := Call.decideArgumentsValid arguments
    inferInstanceAs (Decidable (Call.ArgumentsValid env arguments ∧
      env.implicit receiver + arguments.length ≤ maxArguments))

/-- The conditions on arguments can be checked. -/
def Call.decideArgumentsValid :
    (arguments : List Expression) → Decidable (Call.ArgumentsValid env arguments)
  | [] => isTrue trivial
  | e :: more =>
    have := e.decideValid
    have := Call.decideArgumentsValid more
    inferInstanceAs (Decidable (e.Valid env ∧ Call.ArgumentsValid env more))

end

instance (e : Expression) : Decidable (e.Valid env) := e.decideValid env

instance (c : Call) : Decidable (c.Valid env) := c.decideValid env

mutual

/-- The conditions on a statement can be checked. -/
def Statement.decideValid : (t : Statement) → Decidable (t.Valid env)
  | .let_ name value => inferInstanceAs (Decidable (env.Declares name ∧ value.Valid env))
  | .letElement name index value =>
    inferInstanceAs (Decidable (env.Declares name ∧ index.Valid env ∧ value.Valid env))
  | .if_ condition yes =>
    have := Statement.decideBlockValid yes
    inferInstanceAs (Decidable (condition.Valid env ∧ Statement.BlockValid env yes))
  | .ifElse condition yes no =>
    have := Statement.decideBlockValid yes
    have := Statement.decideBlockValid no
    inferInstanceAs (Decidable (condition.Valid env ∧ Statement.BlockValid env yes ∧
      Statement.BlockValid env no))
  | .while_ condition body =>
    have := Statement.decideBlockValid body
    inferInstanceAs (Decidable (condition.Valid env ∧ Statement.BlockValid env body))
  | .do_ call => inferInstanceAs (Decidable (call.Valid env))
  | .return_ none => isTrue trivial
  | .return_ (some value) => inferInstanceAs (Decidable (value.Valid env))

/-- The conditions on statements in a row can be checked. -/
def Statement.decideBlockValid : (ts : List Statement) → Decidable (Statement.BlockValid env ts)
  | [] => isTrue trivial
  | t :: rest =>
    have := t.decideValid
    have := Statement.decideBlockValid rest
    inferInstanceAs (Decidable (t.Valid env ∧ Statement.BlockValid env rest))

end

end Checks

instance (c : ClassDec) (d : SubroutineDec) : Decidable (d.Valid c) :=
  Statement.decideBlockValid (d.environment c) d.body

instance (c : ClassDec) : Decidable c.Valid :=
  inferInstanceAs (Decidable (∀ d ∈ c.subroutines, d.Valid c))

/-! ## Distinct names -/

/-- Whether declarations are of different names. -/
def Declaration.Distinct (ds : List Declaration) : Prop := (ds.map Declaration.name).Nodup

theorem Declaration.distinct_concat {ds : List Declaration} {d : Declaration} :
    Distinct (ds ++ [d]) ↔ Distinct ds ∧ d.name ∉ ds.map Declaration.name := by
  unfold Distinct
  rw [List.map_append, List.map_singleton, ← List.concat_eq_append, List.nodup_concat]
  exact and_comm

theorem Declaration.Distinct.of_append {ds new : List Declaration} (h : Distinct (ds ++ new)) :
    Distinct ds := by
  unfold Distinct at h ⊢
  rw [List.map_append] at h
  exact h.of_append_left

/-- No name is declared twice in the class, nor twice among the parameters and the locals of one of
its subroutines. -/
def ClassDec.Distinct (c : ClassDec) : Prop :=
  Declaration.Distinct c.declarations ∧ ∀ d ∈ c.subroutines, Declaration.Distinct d.declarations

/-! ## Under options -/

/-- Whether the options let declarations stand in one scope. -/
def Options.Allows (options : Options) (ds : List Declaration) : Prop :=
  options.strict = true → Declaration.Distinct ds

theorem Options.Allows.of_append {options : Options} {ds new : List Declaration}
    (h : options.Allows (ds ++ new)) : options.Allows ds :=
  fun hstrict => (h hstrict).of_append

/-- The conditions on a subroutine of a class, under the given options. The receiver of a method is
in its scope. -/
def SubroutineDec.Admitted (options : Options) (c : ClassDec) (d : SubroutineDec) : Prop :=
  d.Valid c ∧ options.Allows (d.scope c.name)

/-- The conditions on a class, under the given options. -/
def ClassDec.Admitted (options : Options) (c : ClassDec) : Prop :=
  (∀ d ∈ c.subroutines, d.Admitted options c) ∧ options.Allows c.declarations

end Jack
