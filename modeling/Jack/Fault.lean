import Jack.Text.Shown
import Jack.Token.Basic

/-!
# Faults

What can be wrong with a source text, in four categories. A `Fault` is the cause, a `Problem` adds
the line, a `Diagnostic` adds the unit, and an `Error` is a diagnostic or a failure of the
environment. The wording of every message is in `Fault.message`.
-/

namespace Jack

/-- The stage that reports a fault. -/
inductive Category where
  | lexical | syntactic | resolution | declaration
  deriving DecidableEq, Repr

/-- How a category is announced. -/
def Category.text : Category → String
  | lexical => "lexical error"
  | syntactic => "syntax error"
  | resolution => "resolution error"
  | declaration => "declaration error"

/-- The largest number that can be written in a source text, and the longest string. -/
def maxConstant : Nat := 32767

/-- The cause of a complaint about a source text. -/
inductive Fault where
  | unterminatedComment
  | unterminatedString
  | lineBreakInString
  | unsupportedCharacter (c : Char)
  /-- A word that starts with a digit and is no number. -/
  | malformedInteger (word : String)
  | integerTooLarge (word : String)
  /-- A word that is neither a keyword, a number nor a name. -/
  | unrecognizedWord (word : String)
  /-- The grammar calls for something else than the token found. -/
  | expected (what : String) (found : TokenKind)
  | stringTooLong
  | tooManyArguments
  /-- A name is used as a value and stands for no variable. -/
  | unresolved (name : String)
  /-- A name is declared again in the same scope. -/
  | redeclared (name : String)
  /-- A statement is met while there is no subroutine to hold it. -/
  | strayStatement
  /-- A parameter or a local variable is met while there is no subroutine to hold it. -/
  | strayDeclaration
  deriving DecidableEq, Repr

namespace Fault

/-- The stage to which a fault belongs. -/
def category : Fault → Category
  | unterminatedComment | unterminatedString | lineBreakInString | unsupportedCharacter _
  | malformedInteger _ | integerTooLarge _ | unrecognizedWord _ => .lexical
  | expected _ _ | stringTooLong | tooManyArguments | strayStatement | strayDeclaration =>
    .syntactic
  | unresolved _ => .resolution
  | redeclared _ => .declaration

/-- The wording of a fault. -/
def message : Fault → String
  | unterminatedComment => "unterminated comment"
  | unterminatedString => "unterminated string constant"
  | lineBreakInString => "string constant may not contain a line break"
  | unsupportedCharacter c =>
    "unsupported character " ++ Text.quoteChar c ++ " in string constant"
  | malformedInteger word => "invalid integer constant \"" ++ word ++ "\""
  | integerTooLarge word => "integer constant " ++ word ++ " exceeds " ++ toString maxConstant
  | unrecognizedWord word => "unrecognized token \"" ++ word ++ "\""
  | expected what found => "expected " ++ what ++ ", encountered " ++ found.mention
  | stringTooLong => "string constant exceeds " ++ toString maxConstant ++ " characters"
  | tooManyArguments => "too many arguments"
  | unresolved name => "\"" ++ name ++ "\" is not a variable in scope"
  | redeclared name => "\"" ++ name ++ "\" is already declared in this scope"
  | strayStatement => "statement outside of a subroutine"
  | strayDeclaration => "declaration outside of a subroutine"

end Fault

/-- A fault and the line it is reported for. -/
structure Problem where
  line : Nat
  fault : Fault
  deriving DecidableEq, Repr

/-- A problem and the unit of compilation in which it was met. -/
structure Diagnostic where
  unit : String
  line : Nat
  fault : Fault
  deriving DecidableEq, Repr

/-- The problem as one of the given unit. -/
def Problem.inUnit (problem : Problem) (unit : String) : Diagnostic :=
  ⟨unit, problem.line, problem.fault⟩

/-- Unit, line and wording, separated by colons. -/
def located (unit : String) (line : Nat) (wording : String) : String :=
  unit ++ ":" ++ toString line ++ ": " ++ wording

/-- The fault with the place it is reported for. -/
def Diagnostic.text (d : Diagnostic) : String := located d.unit d.line d.fault.message

/-- Why a unit was not compiled: its text is at fault, or a device failed. -/
inductive Error where
  | source (diagnostic : Diagnostic)
  | io (text : String)
  deriving DecidableEq, Repr

namespace Error

/-- The message of an error: a diagnostic after its category, a device's failure as it stands. -/
def message : Error → String
  | source d => d.fault.category.text ++ ": " ++ d.text
  | io text => text

/-- The diagnostic, if the source text is at fault. -/
def diagnostic? : Error → Option Diagnostic
  | source d => some d
  | io _ => none

/-- Whether the scanner reported the error. -/
def isLexical (e : Error) : Bool :=
  match e.diagnostic? with
  | some d => d.fault.category = .lexical
  | none => false

end Error

end Jack
