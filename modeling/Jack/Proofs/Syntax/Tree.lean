import Jack.Token.Basic
import Jack.Variable.Scope

/-!
# Syntax trees

The grammar of the language as data. Each rule of the grammar is a type, each way to apply it a
constructor, and `tokens` is the row of tokens that a tree stands for:

1. expressions: a term, and operators each with a further term; a call has an optional name before
   the dot and a list of arguments;
2. statements, with a block a list of them;
3. declarations, from the names of one `var` up to a class.

A number keeps the digits it is written with, so that `tokens` is a function. Nothing else depends
on them.
-/

namespace Jack

/-- Tokens between two symbols. -/
def enclosed (opening closing : Symbol) (ks : List TokenKind) : List TokenKind :=
  .symbol opening :: (ks ++ [.symbol closing])

/-- Tokens in parentheses. -/
abbrev inParens : List TokenKind → List TokenKind := enclosed .leftParen .rightParen

/-- Tokens in square brackets. -/
abbrev inBrackets : List TokenKind → List TokenKind := enclosed .leftBracket .rightBracket

/-- Tokens in braces. -/
abbrev inBraces : List TokenKind → List TokenKind := enclosed .leftBrace .rightBrace

/-! ## Expressions -/

/-- The operators between two terms. -/
inductive BinaryOperator where
  | add | sub | mul | div | and | or | lt | gt | eq
  deriving DecidableEq, Repr

/-- The symbol of an operator between two terms. -/
def BinaryOperator.symbol : BinaryOperator → Symbol
  | add => .plus
  | sub => .minus
  | mul => .star
  | div => .slash
  | and => .amp
  | or => .pipe
  | lt => .less
  | gt => .greater
  | eq => .equal

/-- The operators in front of a term. -/
inductive UnaryOperator where
  | neg | not
  deriving DecidableEq, Repr

/-- The symbol of an operator in front of a term. -/
def UnaryOperator.symbol : UnaryOperator → Symbol
  | neg => .minus
  | not => .tilde

/-- The keywords that stand for a value. -/
inductive ValueWord where
  | true_ | false_ | null | this_
  deriving DecidableEq, Repr

/-- The keyword itself. -/
def ValueWord.keyword : ValueWord → Keyword
  | true_ => .true_
  | false_ => .false_
  | null => .null
  | this_ => .this_

mutual

/-- A term. -/
inductive Term where
  | integer (value : Nat) (digits : String)
  | string (characters : String)
  | word (w : ValueWord)
  | var (name : String)
  | element (name : String) (index : Expression)
  | call (c : Call)
  | parenthesized (inner : Expression)
  | unary (operator : UnaryOperator) (operand : Term)

/-- A term, and the operators that follow it, each with its right operand. -/
inductive Expression where
  | mk (first : Term) (rest : List (BinaryOperator × Term))

/-- A call: of a subroutine of the same class, or of a member of what stands before the dot. -/
inductive Call where
  | mk (receiver : Option String) (name : String) (arguments : List Expression)

end

/-- The tokens before the parentheses of a call. -/
def Call.headTokens : Option String → String → List TokenKind
  | none, name => [.identifier name]
  | some receiver, name => [.identifier receiver, .symbol .dot, .identifier name]

mutual

/-- The tokens of a term. -/
def Term.tokens : Term → List TokenKind
  | .integer value digits => [.integer value digits]
  | .string characters => [.string characters]
  | .word w => [.keyword w.keyword]
  | .var name => [.identifier name]
  | .element name index => .identifier name :: inBrackets index.tokens
  | .call c => c.tokens
  | .parenthesized inner => inParens inner.tokens
  | .unary operator operand => .symbol operator.symbol :: operand.tokens

/-- The tokens of an expression. -/
def Expression.tokens : Expression → List TokenKind
  | .mk first rest => first.tokens ++ Expression.restTokens rest

/-- The tokens of the operators of an expression and of their right operands. -/
def Expression.restTokens : List (BinaryOperator × Term) → List TokenKind
  | [] => []
  | (operator, operand) :: rest =>
    .symbol operator.symbol :: (operand.tokens ++ Expression.restTokens rest)

/-- The tokens of a call. -/
def Call.tokens : Call → List TokenKind
  | .mk receiver name arguments =>
    Call.headTokens receiver name ++ inParens (Call.argumentTokens arguments)

/-- The tokens of arguments, with commas between them. -/
def Call.argumentTokens : List Expression → List TokenKind
  | [] => []
  | e :: more => e.tokens ++ Call.moreTokens more

/-- The tokens of arguments that follow others, with a comma before each. -/
def Call.moreTokens : List Expression → List TokenKind
  | [] => []
  | e :: more => .symbol .comma :: (e.tokens ++ Call.moreTokens more)

end

/-! ### First and following tokens -/

namespace TokenKind

/-- Whether a term may start with the token. -/
def StartsTerm (k : TokenKind) : Prop :=
  ∀ y, k = .symbol y → y = .leftParen ∨ y = .minus ∨ y = .tilde

/-- Whether the token ends a term that it follows: after a name, some symbols go on. -/
def EndsTerm (k : TokenKind) : Prop :=
  k ≠ .symbol .leftBracket ∧ k ≠ .symbol .leftParen ∧ k ≠ .symbol .dot

/-- Whether the token ends an expression that it follows. -/
def EndsExpression (k : TokenKind) : Prop :=
  k.EndsTerm ∧ ∀ op : BinaryOperator, k ≠ .symbol op.symbol

theorem endsTerm_operator (op : BinaryOperator) : EndsTerm (.symbol op.symbol) := by
  cases op <;> simp [EndsTerm, BinaryOperator.symbol]

theorem endsExpression_rightParen : EndsExpression (.symbol .rightParen) :=
  ⟨by simp [EndsTerm], fun op => by cases op <;> simp [BinaryOperator.symbol]⟩

theorem endsExpression_rightBracket : EndsExpression (.symbol .rightBracket) :=
  ⟨by simp [EndsTerm], fun op => by cases op <;> simp [BinaryOperator.symbol]⟩

theorem endsExpression_comma : EndsExpression (.symbol .comma) :=
  ⟨by simp [EndsTerm], fun op => by cases op <;> simp [BinaryOperator.symbol]⟩

theorem endsExpression_semicolon : EndsExpression (.symbol .semicolon) :=
  ⟨by simp [EndsTerm], fun op => by cases op <;> simp [BinaryOperator.symbol]⟩

end TokenKind

theorem Call.headTokens_cons (receiver : Option String) (name : String) :
    ∃ first ks, Call.headTokens receiver name = .identifier first :: ks := by
  cases receiver with
  | none => exact ⟨name, [], rfl⟩
  | some r => exact ⟨r, _, rfl⟩

theorem Call.tokens_cons (c : Call) : ∃ first ks, c.tokens = .identifier first :: ks := by
  obtain ⟨receiver, name, arguments⟩ := c
  obtain ⟨first, ks, h⟩ := Call.headTokens_cons receiver name
  exact ⟨first, ks ++ inParens (Call.argumentTokens arguments), by rw [Call.tokens, h]; rfl⟩

theorem Term.tokens_cons (t : Term) : ∃ k ks, t.tokens = k :: ks ∧ k.StartsTerm := by
  cases t with
  | integer value digits => exact ⟨_, [], rfl, by simp [TokenKind.StartsTerm]⟩
  | string characters => exact ⟨_, [], rfl, by simp [TokenKind.StartsTerm]⟩
  | word w => exact ⟨_, [], rfl, by simp [TokenKind.StartsTerm]⟩
  | var name => exact ⟨_, [], rfl, by simp [TokenKind.StartsTerm]⟩
  | element name index => exact ⟨_, _, rfl, by simp [TokenKind.StartsTerm]⟩
  | call c =>
    obtain ⟨first, ks, h⟩ := c.tokens_cons
    exact ⟨_, ks, h, by simp [TokenKind.StartsTerm]⟩
  | parenthesized inner => exact ⟨_, _, rfl, by simp [TokenKind.StartsTerm]⟩
  | unary operator operand =>
    exact ⟨_, _, rfl, by cases operator <;> simp [TokenKind.StartsTerm, UnaryOperator.symbol]⟩

theorem Expression.tokens_cons (e : Expression) : ∃ k ks, e.tokens = k :: ks ∧ k.StartsTerm := by
  obtain ⟨first, rest⟩ := e
  obtain ⟨k, ks, h, hstart⟩ := first.tokens_cons
  exact ⟨k, ks ++ Expression.restTokens rest, by rw [Expression.tokens, h]; rfl, hstart⟩

/-! ## Statements -/

/-- A statement. -/
inductive Statement where
  | let_ (name : String) (value : Expression)
  | letElement (name : String) (index value : Expression)
  | if_ (condition : Expression) (yes : List Statement)
  | ifElse (condition : Expression) (yes no : List Statement)
  | while_ (condition : Expression) (body : List Statement)
  | do_ (call : Call)
  | return_ (value : Option Expression)

mutual

/-- The tokens of a statement. -/
def Statement.tokens : Statement → List TokenKind
  | .let_ name value =>
    .keyword .let_ :: .identifier name :: .symbol .equal :: (value.tokens ++ [.symbol .semicolon])
  | .letElement name index value =>
    .keyword .let_ :: .identifier name ::
      (inBrackets index.tokens ++ .symbol .equal :: (value.tokens ++ [.symbol .semicolon]))
  | .if_ condition yes =>
    .keyword .if_ :: (inParens condition.tokens ++ inBraces (Statement.blockTokens yes))
  | .ifElse condition yes no =>
    .keyword .if_ :: (inParens condition.tokens ++ (inBraces (Statement.blockTokens yes) ++
      .keyword .else_ :: inBraces (Statement.blockTokens no)))
  | .while_ condition body =>
    .keyword .while_ :: (inParens condition.tokens ++ inBraces (Statement.blockTokens body))
  | .do_ call => .keyword .do_ :: (call.tokens ++ [.symbol .semicolon])
  | .return_ none => [.keyword .return_, .symbol .semicolon]
  | .return_ (some value) => .keyword .return_ :: (value.tokens ++ [.symbol .semicolon])

/-- The tokens of statements in a row. -/
def Statement.blockTokens : List Statement → List TokenKind
  | [] => []
  | statement :: rest => statement.tokens ++ Statement.blockTokens rest

end

/-- Whether a keyword can start a statement. -/
def Keyword.StartsStatement (k : Keyword) : Prop :=
  k = .let_ ∨ k = .if_ ∨ k = .while_ ∨ k = .do_ ∨ k = .return_

/-- A statement starts with one of five keywords. -/
theorem Statement.tokens_cons (t : Statement) : ∃ k ks, t.tokens = .keyword k :: ks ∧
    k.StartsStatement := by
  cases t with
  | return_ value => cases value <;> exact ⟨_, _, rfl, by simp [Keyword.StartsStatement]⟩
  | _ => exact ⟨_, _, rfl, by simp [Keyword.StartsStatement]⟩

/-- Whether a token can stand after a statement in braces. -/
def TokenKind.FollowsStatement (k : TokenKind) : Prop :=
  k = .symbol .rightBrace ∨ ∃ w : Keyword, k = .keyword w ∧ w.StartsStatement

/-- No alternative, and no declaration, stands after a statement. -/
theorem TokenKind.FollowsStatement.ne_keyword {k : TokenKind} {w : Keyword}
    (h : k.FollowsStatement) (hw : ¬ w.StartsStatement) : k ≠ .keyword w := by
  rintro rfl
  obtain h | ⟨w', h, hw'⟩ := h
  · simp at h
  · rw [TokenKind.keyword.injEq] at h
    exact hw (h ▸ hw')

/-! ## Declarations -/

/-- A type: a primitive one or a class. -/
inductive TypeName where
  | int | char | boolean
  | named (name : String)
  deriving DecidableEq, Repr

/-- The token of a type. -/
def TypeName.token : TypeName → TokenKind
  | int => .keyword .int
  | char => .keyword .char
  | boolean => .keyword .boolean
  | named name => .identifier name

/-- The text of a type. -/
def TypeName.text : TypeName → String
  | int => "int"
  | char => "char"
  | boolean => "boolean"
  | named name => name

/-- The type and the names of one declaration of variables. There is at least one name. -/
structure VariableDec where
  type : TypeName
  first : String
  more : List String

namespace VariableDec

/-- The declared names. -/
def names (d : VariableDec) : List String := d.first :: d.more

/-- The tokens of a declaration after its leading keyword. -/
def tokens (d : VariableDec) : List TokenKind :=
  d.type.token :: .identifier d.first ::
    (d.more.flatMap (fun name => [.symbol .comma, .identifier name]) ++ [.symbol .semicolon])

end VariableDec

/-- The two kinds of variables of a class. -/
inductive ClassStorage where
  | static | field
  deriving DecidableEq, Repr

/-- The keyword that declares class variables. -/
def ClassStorage.keyword : ClassStorage → Keyword
  | static => .static
  | field => .field

/-- The kind of the variables declared. -/
def ClassStorage.kind : ClassStorage → VariableKind
  | static => .static
  | field => .field

/-- A declaration of class variables. -/
structure ClassVariableDec where
  storage : ClassStorage
  vars : VariableDec

/-- The tokens of a declaration of class variables. -/
def ClassVariableDec.tokens (d : ClassVariableDec) : List TokenKind :=
  .keyword d.storage.keyword :: d.vars.tokens

/-- A parameter of a subroutine. -/
structure Parameter where
  type : TypeName
  name : String

/-- The tokens of a parameter. -/
def Parameter.tokens (p : Parameter) : List TokenKind := [p.type.token, .identifier p.name]

/-- The tokens of parameters, with commas between them. -/
def Parameter.listTokens : List Parameter → List TokenKind
  | [] => []
  | p :: more => p.tokens ++ more.flatMap (fun q => .symbol .comma :: q.tokens)

/-- The keyword that declares a subroutine. -/
def SubroutineKind.keyword : SubroutineKind → Keyword
  | constructor => .constructor
  | function => .function
  | method => .method

/-- A subroutine. Without a result type it is declared `void`. -/
structure SubroutineDec where
  kind : SubroutineKind
  result : Option TypeName
  name : String
  parameters : List Parameter
  locals : List VariableDec
  body : List Statement

namespace SubroutineDec

/-- The token of the result type. -/
def resultToken (d : SubroutineDec) : TokenKind :=
  (d.result.map TypeName.token).getD (.keyword .void)

/-- The tokens of a subroutine's locals. -/
def localTokens (locals : List VariableDec) : List TokenKind :=
  locals.flatMap fun d => .keyword .var :: d.tokens

/-- The tokens of a subroutine. -/
def tokens (d : SubroutineDec) : List TokenKind :=
  .keyword d.kind.keyword :: d.resultToken :: .identifier d.name ::
    (inParens (Parameter.listTokens d.parameters) ++
      inBraces (localTokens d.locals ++ Statement.blockTokens d.body))

end SubroutineDec

/-- A class. -/
structure ClassDec where
  name : String
  vars : List ClassVariableDec
  subroutines : List SubroutineDec

/-- The tokens of a class. -/
def ClassDec.tokens (c : ClassDec) : List TokenKind :=
  .keyword .class_ :: .identifier c.name ::
    inBraces (c.vars.flatMap ClassVariableDec.tokens ++
      c.subroutines.flatMap SubroutineDec.tokens)

end Jack
