/-!
# Symbols

The punctuation of the language. Each symbol is a single character.
-/

namespace Jack

/-- The punctuation characters. -/
inductive Symbol where
  | leftBrace | rightBrace | leftParen | rightParen | leftBracket | rightBracket
  | dot | comma | semicolon
  | plus | minus | star | slash | amp | pipe | less | greater | equal | tilde
  deriving DecidableEq, Repr

namespace Symbol

/-- The character of a symbol. -/
def char : Symbol → Char
  | leftBrace => '{'
  | rightBrace => '}'
  | leftParen => '('
  | rightParen => ')'
  | leftBracket => '['
  | rightBracket => ']'
  | dot => '.'
  | comma => ','
  | semicolon => ';'
  | plus => '+'
  | minus => '-'
  | star => '*'
  | slash => '/'
  | amp => '&'
  | pipe => '|'
  | less => '<'
  | greater => '>'
  | equal => '='
  | tilde => '~'

/-- All symbols. -/
def all : List Symbol :=
  [leftBrace, rightBrace, leftParen, rightParen, leftBracket, rightBracket, dot, comma, semicolon,
    plus, minus, star, slash, amp, pipe, less, greater, equal, tilde]

theorem mem_all (s : Symbol) : s ∈ all := by cases s <;> decide

/-- The symbol with this character. -/
def ofChar? (c : Char) : Option Symbol := all.find? fun s => s.char == c

/-- The spelling of a symbol. -/
def text (s : Symbol) : String := String.singleton s.char

theorem ofChar?_char (s : Symbol) : ofChar? s.char = some s := by cases s <;> decide

theorem char_of_ofChar? {c : Char} {s : Symbol} (h : ofChar? c = some s) : s.char = c := by
  simpa using List.find?_some h

end Symbol

end Jack
