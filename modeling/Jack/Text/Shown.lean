import Jack.Text.Hidden

/-!
# How a message shows a character

A character outside ASCII stands between single quotes, as itself when it is visible on its own
and as its code point in hexadecimal otherwise.
-/

namespace Jack.Text

/-- Whether the character is written as itself in a message. -/
def isShown (c : Char) : Bool := !hiddenRanges.contains c

/-- The character between single quotes, as itself or as an escape such as `\u{200b}`. -/
def quoteChar (c : Char) : String :=
  if isShown c then
    "'" ++ String.singleton c ++ "'"
  else
    "'\\u\x7b" ++ String.ofList (Nat.toDigits 16 c.toNat) ++ "\x7d'"

end Jack.Text
