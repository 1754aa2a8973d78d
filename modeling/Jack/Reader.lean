import Jack.Device.Devices

/-!
# Reading with a sink attached

A reader is a token stream of a unit together with a sink. It performs the operations of a pass one
at a time: the sink is told of a token before it is left, and if it refuses, the token stays.
-/

namespace Jack

variable {σ α : Type}

/-- A token stream with a sink. -/
abbrev Reader (σ : Type) := Pass.State (Devices σ)

namespace Reader

/-- A reader of a unit. Nothing is written. -/
def attach (unit : String) (tokens : TokenStream) (sink : Sink σ) (state : σ) : Reader σ :=
  ⟨tokens, ⟨unit, Outlet.empty none, sink, state⟩⟩

/-- Perform an operation. -/
def perform (reader : Reader σ) (operation : PassOn (Devices σ) Error α) :
    Except Error α × Reader σ :=
  match operation reader with
  | .ok a after => (.ok a, after)
  | .error e after => (.error e, after)

end Reader

end Jack
