import Jack.Device.Outlet
import Jack.Device.Sink
import Jack.Pass.Basic

/-!
# The devices of a unit

A unit is compiled to an outlet for the code, with a sink that is told of the tokens. A write or a
call that fails stops the compilation at once, with the words of the device.
-/

namespace Jack

/-- What the compilation of a unit drives: an outlet, and a sink with its state. -/
structure Devices (σ : Type) where
  unit : String
  outlet : Outlet
  sink : Sink σ
  state : σ

namespace Devices

variable {σ : Type}

/-- Write a text to the outlet. -/
def write (text : String) : EStateM Error (Devices σ) Unit := fun devices =>
  match Outlet.write text devices.outlet with
  | .ok _ outlet => .ok () { devices with outlet := outlet }
  | .error failure outlet => .error (.io failure) { devices with outlet := outlet }

/-- Call the sink. -/
def call (method : EStateM String σ Unit) : EStateM Error (Devices σ) Unit := fun devices =>
  match method devices.state with
  | .ok _ state => .ok () { devices with state := state }
  | .error failure state => .error (.io failure) { devices with state := state }

/-- Lines go to the outlet, tokens and the end of the unit to the sink. -/
instance : Device (Devices σ) Error where
  report devices problem := .source (problem.inUnit devices.unit)
  handle event := fun devices =>
    match event with
    | .line l => write l.text devices
    | .token t => call (devices.sink.token t) devices
    | .finish => call devices.sink.finish devices
    | .note _ => .ok () devices

end Devices

end Jack
