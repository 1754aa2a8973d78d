/-!
# Outlets

An outlet takes bytes until it is full. A text that does not fit is cut: the bytes that fit are
kept and the write fails.
-/

namespace Jack

/-- A place to write to, with the bytes written so far and the number it can hold, if that is
bounded. -/
structure Outlet where
  limit : Option Nat
  written : ByteArray

namespace Outlet

/-- An outlet with nothing written to it. -/
def empty (limit : Option Nat) : Outlet := ⟨limit, ByteArray.empty⟩

/-- What a full outlet answers. -/
def full : String := "output full"

/-- Write a text, or as much of it as fits. -/
def write (text : String) : EStateM String Outlet Unit := fun outlet =>
  let room := match outlet.limit with
    | some limit => limit - outlet.written.size
    | none => text.utf8ByteSize
  if text.utf8ByteSize ≤ room then
    .ok () { outlet with written := outlet.written ++ text.toUTF8 }
  else
    .error full { outlet with written := outlet.written ++ text.toUTF8.extract 0 room }

end Outlet

end Jack
