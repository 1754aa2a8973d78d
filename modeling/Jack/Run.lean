import Jack.Device.Devices
import Jack.Device.TokenTrace
import Jack.Pass.Class

/-!
# Compiling a unit

A source text is compiled by one pass over its tokens, which drives a device as it goes:

1. `drive` is the compilation on any device;
2. `run` is the compilation on a journal. It depends on the source text and the options only;
3. `compile` and `compileWith` compile to an outlet without a bound and read its bytes as a text.
-/

namespace Jack

variable {δ ε σ : Type} [Device δ ε]

/-- A bound on the steps of a pass: four for each token, and four more. -/
def passBound (tokens : TokenStream) : Nat := 4 * tokens.size + 4

/-- Compile a source text on a device. -/
def drive (options : Options) (source : String) : EStateM ε δ Unit := fun device =>
  match TokenStream.ofSource source with
  | .error problem => .error (Device.report device problem) device
  | .ok tokens =>
    match Pass.compilationUnit options (passBound tokens) ⟨tokens, device⟩ with
    | .ok _ after => .ok () after.device
    | .error e after => .error e after.device

/-! ## Journals -/

/-- The course of a compilation. -/
structure Run where
  events : Array Event
  problem : Option Problem

/-- The course of the compilation of a source text. -/
def run (options : Options) (source : String) : Run :=
  match drive options source (#[] : Array Event) with
  | .ok _ journal => ⟨journal, none⟩
  | .error problem journal => ⟨journal, some problem⟩

namespace Run

/-- The lines of code written, also when the compilation was stopped. -/
def lines (r : Run) : List Line := r.events.toList.filterMap Event.line?

/-- The notes made. -/
def notes (r : Run) : List Note := r.events.toList.filterMap Event.note?

/-- The tokens consumed. -/
def tokens (r : Run) : List Token := r.events.toList.filterMap Event.token?

/-- The text of the code written. -/
def text (r : Run) : String := Line.listing r.lines

/-- What became of the compilation of the given unit. -/
def outcome (unit : String) (r : Run) : Except Error Unit :=
  match r.problem with
  | none => .ok ()
  | some problem => .error (.source (problem.inUnit unit))

end Run

/-! ## Texts -/

/-- What is answered for code that is no text. -/
def notUnicode : String := "invalid utf-8 sequence"

/-- The bytes of an outlet as a text. -/
def Outlet.text (outlet : Outlet) : Except Error String :=
  match String.fromUTF8? outlet.written with
  | some text => .ok text
  | none => .error (.io notUnicode)

/-- The code of a unit, and the state in which its tokens leave a sink. -/
def compileWith (options : Options) (sink : Sink σ) (state : σ) (unit source : String) :
    Except Error String × σ :=
  match drive options source (Devices.mk unit (Outlet.empty none) sink state) with
  | .ok _ devices => (devices.outlet.text, devices.state)
  | .error e devices => (.error e, devices.state)

/-- The code of a unit. -/
def compile (options : Options) (unit source : String) : Except Error String :=
  (compileWith options Sink.silent () unit source).1

end Jack
