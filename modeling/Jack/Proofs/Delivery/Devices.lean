import Jack.Proofs.Pass.Replay
import Jack.Run

/-!
# A unit and its devices

The compilation of a unit writes to an outlet and calls a sink. By replay it is enough to know what
the devices make of the events of its journal, one after the other:

1. a line goes to the outlet, a token and the end of the unit go to the sink (`Sink.hear`), and a
   note goes nowhere;
2. an outlet without a limit never fails, so nothing but the sink can stop the compilation
   (`handleAll_of_hearAll_ok`, `handleAll_of_hearAll_error`);
3. the bytes written are those of a text, so a compilation that succeeds has a text
   (`compile_eq_outcome`).
-/

namespace Jack

open Pass (handleAll bind_apply_ok bind_apply_error)

variable {σ : Type} {sink : Sink σ} {state after : σ} {events : List Event} {event : Event}
  {unit failure : String} {outlet outlet' : Outlet} {written : ByteArray}

/-! ## Sinks -/

namespace Sink

/-- Tell a sink of an event. It hears of tokens and of the end. -/
def hear (sink : Sink σ) : Event → EStateM String σ Unit
  | .token t => sink.token t
  | .finish => sink.finish
  | .line _ | .note _ => pure ()

/-- Tell a sink of events in order, up to its first refusal. -/
def hearAll (sink : Sink σ) : List Event → EStateM String σ Unit
  | [] => pure ()
  | event :: events => do
    sink.hear event
    sink.hearAll events

theorem hearAll_append (xs ys : List Event) :
    sink.hearAll (xs ++ ys) = (do sink.hearAll xs; sink.hearAll ys) := by
  induction xs with
  | nil => rfl
  | cons event events ih => simp only [List.cons_append, hearAll, ih, bind_assoc]

theorem hearAll_append_of_ok {xs ys : List Event} (h : sink.hearAll xs state = .ok () after) :
    sink.hearAll (xs ++ ys) state = sink.hearAll ys after := by
  rw [hearAll_append, bind_apply_ok h]

theorem hearAll_cons_of_ok (h : sink.hear event state = .ok () after) :
    sink.hearAll (event :: events) state = sink.hearAll events after := bind_apply_ok h

theorem hearAll_cons_of_error (h : sink.hear event state = .error failure after) :
    sink.hearAll (event :: events) state = .error failure after := bind_apply_error h

theorem hearAll_silent (events : List Event) : Sink.silent.hearAll events () = .ok () () := by
  induction events with
  | nil => rfl
  | cons event events ih => cases event <;> exact ih

end Sink

/-! ## Events -/

theorem Event.eq_line_of_line? {l : Line} (h : event.line? = some l) : event = .line l := by
  cases event <;> cases h
  rfl

section Handle

theorem handleAll_cons_of_ok {devices devices' : Devices σ}
    (h : Device.handle event devices = .ok () devices') :
    (handleAll (event :: events) : EStateM Error (Devices σ) Unit) devices =
      handleAll events devices' := bind_apply_ok h

theorem handleAll_cons_of_error {devices devices' : Devices σ} {e : Error}
    (h : Device.handle event devices = .error e devices') :
    (handleAll (event :: events) : EStateM Error (Devices σ) Unit) devices =
      .error e devices' := bind_apply_error h

theorem unit_of_call_ok {devices devices' : Devices σ} {method : EStateM String σ Unit}
    (h : Devices.call method devices = .ok () devices') : devices'.unit = devices.unit := by
  unfold Devices.call at h
  split at h <;> cases h
  rfl

/-- The devices stay those of one unit. -/
theorem unit_of_handle_ok {devices devices' : Devices σ}
    (h : Device.handle event devices = .ok () devices') : devices'.unit = devices.unit := by
  cases event with
  | line l =>
    change Devices.write l.text devices = _ at h
    unfold Devices.write at h
    split at h <;> cases h
    rfl
  | token t => exact unit_of_call_ok h
  | finish => exact unit_of_call_ok h
  | note n =>
    cases h
    rfl

theorem unit_of_handleAll_ok {devices devices' : Devices σ}
    (h : handleAll events devices = .ok () devices') : devices'.unit = devices.unit := by
  induction events generalizing devices with
  | nil =>
    cases h
    rfl
  | cons event events ih =>
    cases hevent : Device.handle event devices with
    | ok u between =>
      rw [handleAll_cons_of_ok hevent] at h
      exact (ih h).trans (unit_of_handle_ok hevent)
    | error e between =>
      rw [handleAll_cons_of_error hevent] at h
      cases h

/-- A line goes to the outlet. -/
theorem handle_line_of_ok {l : Line} (h : Outlet.write l.text outlet = .ok () outlet') :
    Device.handle (.line l) (Devices.mk unit outlet sink state) =
      .ok () ⟨unit, outlet', sink, state⟩ := by
  show Devices.write l.text _ = _
  simp [Devices.write, h]

theorem handle_line_of_error {l : Line} (h : Outlet.write l.text outlet = .error failure outlet') :
    Device.handle (.line l) (Devices.mk unit outlet sink state) =
      .error (.io failure) ⟨unit, outlet', sink, state⟩ := by
  show Devices.write l.text _ = _
  simp [Devices.write, h]

/-- Everything else goes to the sink. -/
theorem handle_of_hear_ok (hevent : event.line? = none)
    (h : sink.hear event state = .ok () after) :
    Device.handle event (Devices.mk unit outlet sink state) =
      .ok () ⟨unit, outlet, sink, after⟩ := by
  cases event with
  | line l => cases hevent
  | token t =>
    show Devices.call (sink.token t) _ = _
    simp [Devices.call, show sink.token t state = _ from h]
  | finish =>
    show Devices.call sink.finish _ = _
    simp [Devices.call, show sink.finish state = _ from h]
  | note n =>
    cases h
    rfl

theorem handle_of_hear_error (hevent : event.line? = none)
    (h : sink.hear event state = .error failure after) :
    Device.handle event (Devices.mk unit outlet sink state) =
      .error (.io failure) ⟨unit, outlet, sink, after⟩ := by
  cases event with
  | line l => cases hevent
  | token t =>
    show Devices.call (sink.token t) _ = _
    simp [Devices.call, show sink.token t state = _ from h]
  | finish =>
    show Devices.call sink.finish _ = _
    simp [Devices.call, show sink.finish state = _ from h]
  | note n => cases h

end Handle

/-! ## Outlets without a limit -/

theorem Outlet.write_unlimited (text : String) (written : ByteArray) :
    Outlet.write text ⟨none, written⟩ = .ok () ⟨none, written ++ text.toUTF8⟩ := by
  simp [Outlet.write]

/-- The bytes of some lines. -/
def Line.bytes (lines : List Line) : ByteArray := (Line.listing lines).toUTF8

theorem Line.bytes_cons (l : Line) (lines : List Line) :
    Line.bytes (l :: lines) = l.text.toUTF8 ++ Line.bytes lines := by
  simp [Line.bytes, Line.listing]

theorem handle_line_unlimited (l : Line) :
    Device.handle (.line l) (Devices.mk unit ⟨none, written⟩ sink state) =
      .ok () ⟨unit, ⟨none, written ++ l.text.toUTF8⟩, sink, state⟩ :=
  handle_line_of_ok (Outlet.write_unlimited _ _)

/-- What is written does not depend on the sink, and the state of the sink not on what is written.
So events are gone through in one of three ways: a line is written, the sink takes what it hears, or
it refuses. -/
@[elab_as_elim]
theorem Sink.events_induction (sink : Sink σ) {motive : List Event → ByteArray → σ → Prop}
    (nil : ∀ written state, motive [] written state)
    (line : ∀ l events written state, motive events (written ++ l.text.toUTF8) state →
      motive (.line l :: events) written state)
    (heard : ∀ event events written state after, event.line? = none →
      sink.hear event state = .ok () after → motive events written after →
      motive (event :: events) written state)
    (refused : ∀ event events written state failure after, event.line? = none →
      sink.hear event state = .error failure after → motive (event :: events) written state)
    (events : List Event) (written : ByteArray) (state : σ) : motive events written state := by
  induction events generalizing written state with
  | nil => exact nil written state
  | cons event events ih =>
    cases hline : event.line? with
    | some l =>
      obtain rfl := Event.eq_line_of_line? hline
      exact line l events written state (ih _ state)
    | none =>
      cases hhear : sink.hear event state with
      | ok u after => exact heard event events written state after hline hhear (ih written after)
      | error failure after => exact refused event events written state failure after hline hhear

/-- Everything is handled if the sink takes what it hears. -/
theorem handleAll_of_hearAll_ok (h : sink.hearAll events state = .ok () after) :
    handleAll events (Devices.mk unit ⟨none, written⟩ sink state) =
      .ok () ⟨unit, ⟨none, written ++ Line.bytes (events.filterMap Event.line?)⟩, sink, after⟩ := by
  induction events, written, state using sink.events_induction with
  | nil written state =>
    cases h
    simp [Line.bytes, Line.listing, handleAll, pure, EStateM.pure]
  | line l events written state ih =>
    have hline : (Event.line l).line? = some l := rfl
    rw [handleAll_cons_of_ok (handle_line_unlimited l), ih h, List.filterMap_cons_some hline,
      Line.bytes_cons, ByteArray.append_assoc]
  | heard event events written state between hline hhear ih =>
    rw [Sink.hearAll_cons_of_ok hhear] at h
    rw [handleAll_cons_of_ok (handle_of_hear_ok hline hhear), ih h, List.filterMap_cons_none hline]
  | refused event events written state failure between hline hhear =>
    rw [Sink.hearAll_cons_of_error hhear] at h
    cases h

/-- If the sink refuses something, that is the end. -/
theorem handleAll_of_hearAll_error (h : sink.hearAll events state = .error failure after) :
    ∃ written', handleAll events (Devices.mk unit ⟨none, written⟩ sink state) =
      .error (.io failure) ⟨unit, ⟨none, written'⟩, sink, after⟩ := by
  induction events, written, state using sink.events_induction with
  | nil written state => cases h
  | line l events written state ih =>
    rw [handleAll_cons_of_ok (handle_line_unlimited l)]
    exact ih h
  | heard event events written state between hline hhear ih =>
    rw [Sink.hearAll_cons_of_ok hhear] at h
    rw [handleAll_cons_of_ok (handle_of_hear_ok hline hhear)]
    exact ih h
  | refused event events written state failure' between hline hhear =>
    rw [Sink.hearAll_cons_of_error hhear] at h
    cases h
    exact ⟨written, handleAll_cons_of_error (handle_of_hear_error hline hhear)⟩

/-! ## Compilations -/

section Compile

variable {options : Options} {source : String}

/-- The bytes of a text are a text. -/
theorem fromUTF8?_toUTF8 (text : String) : String.fromUTF8? text.toUTF8 = some text := by
  rw [String.fromUTF8?, String.toUTF8_eq_toByteArray, dif_pos text.isValidUTF8]
  rfl

/-- A sink that takes what it hears leaves the result to the run. -/
theorem compileWith_of_hearAll_ok
    (h : sink.hearAll (run options source).events.toList state = .ok () after) :
    compileWith options sink state unit source =
      (((run options source).outcome unit).map fun _ => (run options source).text, after) := by
  have hevents := @handleAll_of_hearAll_ok σ sink state after _ unit ByteArray.empty h
  have htext : Outlet.text ⟨none, ByteArray.empty ++ Line.bytes
      ((run options source).events.toList.filterMap Event.line?)⟩ =
        .ok (run options source).text := by
    rw [ByteArray.empty_append, Outlet.text]
    simp only [Line.bytes, fromUTF8?_toUTF8]
    rfl
  unfold compileWith
  rw [drive_eq_replay, Run.replay, Outlet.empty]
  simp only [hevents, Run.outcome]
  cases (run options source).problem with
  | none => simp only [htext, Except.map]
  | some e => rfl

/-- The refusal of a sink is the result. -/
theorem compileWith_of_hearAll_error
    (h : sink.hearAll (run options source).events.toList state = .error failure after) :
    compileWith options sink state unit source = (.error (.io failure), after) := by
  obtain ⟨written, hevents⟩ :=
    @handleAll_of_hearAll_error σ sink state after _ unit failure ByteArray.empty h
  unfold compileWith
  rw [drive_eq_replay, Run.replay, Outlet.empty]
  simp only [hevents]

/-- What is compiled is what the run has written, if it succeeds. -/
theorem compile_eq_outcome (options : Options) (unit source : String) :
    compile options unit source =
      ((run options source).outcome unit).map fun _ => (run options source).text := by
  rw [compile, compileWith_of_hearAll_ok (Sink.hearAll_silent _)]

theorem compile_ok_iff {text : String} :
    compile options unit source = .ok text ↔
      (run options source).problem = none ∧ (run options source).text = text := by
  rw [compile_eq_outcome]
  unfold Run.outcome
  cases h : (run options source).problem <;> simp [Except.map]

theorem compile_error_iff {error : Error} :
    compile options unit source = .error error ↔
      ∃ e, (run options source).problem = some e ∧ error = .source (e.inUnit unit) := by
  rw [compile_eq_outcome]
  unfold Run.outcome
  cases h : (run options source).problem with
  | none => simp [Except.map]
  | some e => simp [Except.map, eq_comm]

end Compile

end Jack
