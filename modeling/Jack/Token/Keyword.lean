/-!
# Keywords

The reserved words of the language. Each has one spelling, and `ofText?` reads it back.
-/

namespace Jack

/-- The reserved words. A name that the host language reserves too ends in an underscore. -/
inductive Keyword where
  | class_ | constructor | function | method | field | static | var
  | int | char | boolean | void
  | true_ | false_ | null | this_
  | let_ | do_ | if_ | else_ | while_ | return_
  deriving DecidableEq, Repr

namespace Keyword

/-- The spelling of a keyword. -/
def text : Keyword → String
  | class_ => "class"
  | constructor => "constructor"
  | function => "function"
  | method => "method"
  | field => "field"
  | static => "static"
  | var => "var"
  | int => "int"
  | char => "char"
  | boolean => "boolean"
  | void => "void"
  | true_ => "true"
  | false_ => "false"
  | null => "null"
  | this_ => "this"
  | let_ => "let"
  | do_ => "do"
  | if_ => "if"
  | else_ => "else"
  | while_ => "while"
  | return_ => "return"

/-- All keywords. -/
def all : List Keyword :=
  [class_, constructor, function, method, field, static, var, int, char, boolean, void, true_,
    false_, null, this_, let_, do_, if_, else_, while_, return_]

theorem mem_all (k : Keyword) : k ∈ all := by cases k <;> decide

/-- The keyword with this spelling. -/
def ofText? (text : String) : Option Keyword := all.find? fun k => k.text == text

/-- Whether the keyword names a primitive type. -/
def isType : Keyword → Bool
  | int | char | boolean => true
  | _ => false

theorem ofText?_text (k : Keyword) : ofText? k.text = some k := by cases k <;> decide

theorem text_of_ofText? {text : String} {k : Keyword} (h : ofText? text = some k) :
    k.text = text := by
  simpa using List.find?_some h

theorem ofText?_eq_some_iff {text : String} {k : Keyword} :
    ofText? text = some k ↔ k.text = text :=
  ⟨text_of_ofText?, fun h => h ▸ ofText?_text k⟩

end Keyword

end Jack
