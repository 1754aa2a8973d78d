import Jack.Token.Keyword
import Jack.Token.Symbol

/-!
# Tokens

A token is what it stands for together with the line on which it starts. What it stands for
(`TokenKind`) carries all that later stages need: the keyword, the symbol, the value of a number,
the characters of a string, a name.
-/

namespace Jack

/-- The class of a token, as the token listing names it. -/
inductive TokenTag where
  | keyword | symbol | integerConstant | stringConstant | identifier | eof
  deriving DecidableEq, Repr

/-- The name of a token class. -/
def TokenTag.text : TokenTag → String
  | keyword => "keyword"
  | symbol => "symbol"
  | integerConstant => "integerConstant"
  | stringConstant => "stringConstant"
  | identifier => "identifier"
  | eof => "eof"

/-- What a token stands for. The end of the input is a token too. -/
inductive TokenKind where
  | keyword (k : Keyword)
  | symbol (s : Symbol)
  /-- A number, with the digits it was written with: leading zeros are kept. -/
  | integer (value : Nat) (digits : String)
  /-- The characters between the quotes. -/
  | string (characters : String)
  | identifier (name : String)
  | eof
  deriving DecidableEq, Repr

namespace TokenKind

/-- The class of a token. -/
def tag : TokenKind → TokenTag
  | keyword _ => .keyword
  | symbol _ => .symbol
  | integer _ _ => .integerConstant
  | string _ => .stringConstant
  | identifier _ => .identifier
  | eof => .eof

/-- The source text of a token; a string constant is given without its quotes. -/
def lexeme : TokenKind → String
  | keyword k => k.text
  | symbol s => s.text
  | integer _ digits => digits
  | string characters => characters
  | identifier name => name
  | eof => ""

/-- The class of a token in words, with the keyword, symbol or value where there is one. -/
def describe : TokenKind → String
  | keyword k => "keyword '" ++ k.text ++ "'"
  | symbol s => "symbol '" ++ s.text ++ "'"
  | integer value _ => "integer constant " ++ toString value
  | string _ => "string constant"
  | identifier _ => "identifier"
  | eof => "end of input"

/-- The token as a complaint about it names it: names and strings are quoted. -/
def mention : TokenKind → String
  | string characters => "string constant \"" ++ characters ++ "\""
  | identifier name => "identifier \"" ++ name ++ "\""
  | kind => kind.describe

/-- Whether this is the end of the input. -/
def isEof : TokenKind → Bool
  | eof => true
  | _ => false

theorem isEof_iff {kind : TokenKind} : kind.isEof = true ↔ kind = eof := by
  cases kind <;> simp [isEof]

/-- The symbol, if the token is one. -/
def symbol? : TokenKind → Option Symbol
  | symbol s => some s
  | _ => none

/-- The keyword, if the token is one. -/
def keyword? : TokenKind → Option Keyword
  | keyword k => some k
  | _ => none

end TokenKind

/-- A token and the line on which it starts, counted from 1. No text has too many lines to count:
the numbers of lines are not bounded. -/
structure Token where
  kind : TokenKind
  line : Nat
  deriving DecidableEq, Repr

namespace Token

/-- Whether the token is the end of the input. -/
def isEof (token : Token) : Bool := token.kind.isEof

end Token

end Jack
