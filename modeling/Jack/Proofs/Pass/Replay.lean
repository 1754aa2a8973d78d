import Jack.Proofs.Pass.Course

/-!
# Compilations and their journals

The journal of a compilation tells what it does on any device (`drive_eq_replay`): the device
handles the events of the journal in their order. If it fails at one of them, the compilation stops
there with its failure. If it does not, the compilation ends as the journal does.

1. A pass over a unit has a course on every stream (`exists_unitCourse`). It announces the end of
   the unit once, after everything else, and only if it succeeds.
2. `run_of_plays` reads the journal of a compilation off the course of its pass.
-/

namespace Jack

variable {δ ε : Type} [Device δ ε]

namespace Pass

variable {a b : TokenStream}

/-- The problem that ends a pass, if there is one. -/
def problem? {α : Type} : Except Problem α → Option Problem
  | .ok _ => none
  | .error e => some e

/-- Two passes over a unit: one that keeps a journal, and one on any device. -/
def unitContract (δ ε : Type) [Device δ ε] [Unwatched δ] (left right : Options)
    (hstrict : left.strict = true → right.strict = true) (ends : Prop) :
    Contract (Array Event) Problem δ ε :=
  .over _ _ _ _ left right hstrict (fun _ => True) True ends

/-- The end of the unit is announced once, after everything else, and only by a success. -/
def Finishes (r : Except Problem Unit) (es : List Event) : Prop :=
  match r with
  | .ok _ => ∃ before, es = before ++ [.finish] ∧ .finish ∉ before
  | .error _ => .finish ∉ es

theorem Plays.unique {α : Type} {p : Pass α} {r r' : Except Problem α} {es es' : List Event}
    {b' : TokenStream} (h : Plays p a r b es) (h' : Plays p a r' b' es') :
    r = r' ∧ b = b' ∧ es = es' := by
  have hend := h'.journal
  rw [h.journal] at hend
  cases r with
  | ok x =>
    cases r' with
    | ok y =>
      cases hend
      exact ⟨rfl, rfl, rfl⟩
    | error e => cases hend
  | error e =>
    cases r' with
    | ok y => cases hend
    | error e' =>
      cases hend
      exact ⟨rfl, rfl, rfl⟩

/-- The end of the unit comes after the class. -/
theorem finishes_of_plays {options : Options} {bound : Nat} {r : Except Problem Unit}
    {es : List Event} (ha : a.Genuine)
    (h : Plays (compilationUnit options bound : Pass Unit) a r b es) : Finishes r es := by
  obtain ⟨r', b', es', hcourse⟩ := exists_course (c := unitContract (Array Event) Problem
    options options id False) trivial (fun _ => ha)
    (lockstep_classDeclaration (fun _ => trivial) trivial bound _)
  have hclass : .finish ∉ es' := hcourse.account.finish
  cases r' with
  | error e =>
    obtain ⟨rfl, -, rfl⟩ := h.unique hcourse.plays.bind_error
    exact hclass
  | ok u =>
    by_cases heof : b'.current.kind = .eof
    · have hfinish : Plays (finish : Pass Unit) b' (.ok ()) b' [.finish] := by
        refine .current_bind ?_
        rw [if_pos heof]
        exact plays_emit _
      obtain ⟨rfl, -, rfl⟩ := h.unique (hcourse.plays.bind hfinish)
      exact ⟨es', rfl, hclass⟩
    · have hfinish : Plays (finish : Pass Unit) b'
          (.error ⟨b'.current.line, .expected "end of input" b'.current.kind⟩) b' [] := by
        refine .current_bind ?_
        rw [if_neg heof]
        exact plays_of_quiet fun _ => rfl
      obtain ⟨rfl, -, rfl⟩ := h.unique (hcourse.plays.bind hfinish)
      rw [List.append_nil]
      exact hclass

/-- **Units.** A pass over a unit has a course on every stream, and a pass with stricter options on
another device follows it. -/
theorem exists_unitCourse [Unwatched δ] (left right : Options)
    (hstrict : left.strict = true → right.strict = true) (bound : Nat) (ha : a.Genuine) :
    ∃ r b es, Course (unitContract δ ε left right hstrict True) none
      (compilationUnit left bound) (compilationUnit right bound)
      (fun _ _ w => w.ahead.kind = .eof) a r b es ∧ Finishes r es := by
  obtain ⟨r, b, es, hcourse⟩ := exists_course (c := unitContract δ ε left right hstrict True)
    trivial (fun _ => ha) (lockstep_compilationUnit (fun _ => trivial) trivial trivial bound _)
  exact ⟨r, b, es, hcourse, finishes_of_plays ha hcourse.plays⟩

end Pass

open Pass

variable {options : Options} {source : String} {a b : TokenStream} {r : Except Problem Unit}
  {es : List Event}

/-! ## Journals of compilations -/

theorem run_of_error {e : Problem} (h : TokenStream.ofSource source = .error e) :
    run options source = ⟨#[], some e⟩ := by
  unfold run drive
  rw [h]
  rfl

theorem run_of_pass_ok {u : Unit} {s : State} (ha : TokenStream.ofSource source = .ok a)
    (h : compilationUnit options (passBound a) ⟨a, #[]⟩ = .ok u s) :
    run options source = ⟨s.device, none⟩ := by
  unfold run drive
  simp only [ha, h]

theorem run_of_pass_error {e : Problem} {s : State} (ha : TokenStream.ofSource source = .ok a)
    (h : compilationUnit options (passBound a) ⟨a, #[]⟩ = .error e s) :
    run options source = ⟨s.device, some e⟩ := by
  unfold run drive
  simp only [ha, h]

theorem run_of_plays (ha : TokenStream.ofSource source = .ok a)
    (h : Plays (compilationUnit options (passBound a) : Pass Unit) a r b es) :
    run options source = ⟨es.toArray, problem? r⟩ := by
  unfold run drive
  simp only [ha, h.journal]
  cases r <;> rfl

/-- The journal of a compilation is that of the course of its pass. -/
theorem run_of_does {strict : Bool} {ts : List Token} (ha : TokenStream.ofSource source = .ok a)
    (h : Does strict (compilationUnit options (passBound a)) a r b ts) :
    (run options source).tokens = ts ∧ (run options source).problem = problem? r := by
  obtain ⟨es, hplays, rfl⟩ := h.plays
  rw [run_of_plays ha hplays]
  exact ⟨rfl, rfl⟩

/-- Let a device handle what the journal holds, and end as the journal does. -/
def Run.replay (r : Run) : EStateM ε δ Unit := fun device =>
  match handleAll r.events.toList device with
  | .error e after => .error e after
  | .ok _ after =>
    match r.problem with
    | none => .ok () after
    | some problem => .error (Device.report after problem) after

/-- **Replay.** A compilation on any device does what its journal says, up to the first event at
which the device fails. -/
theorem drive_eq_replay [Unwatched δ] (options : Options) (source : String) :
    (drive options source : EStateM ε δ Unit) = (run options source).replay := by
  funext d
  cases ha : TokenStream.ofSource source with
  | error e =>
    rw [run_of_error ha]
    simp only [drive, ha]
    rfl
  | ok a =>
    obtain ⟨r, b, es, hcourse, -⟩ := exists_unitCourse (δ := δ) options options id
      (passBound a) (TokenStream.genuine_ofSource ha)
    obtain ⟨es', hplays, -, hes⟩ | ⟨⟨hlax, hstrict⟩, -⟩ := hcourse.follows
    · obtain rfl := hes rfl
      rw [run_of_plays ha hcourse.plays]
      simp only [drive, ha, Run.replay]
      cases hd : (handleAll es' : EStateM ε δ Unit) d with
      | ok u d' =>
        simp only [hplays.ok hd]
        cases r <;> rfl
      | error e d' =>
        obtain ⟨m, hm⟩ := hplays.error hd
        simp only [hm]
    · exact absurd (hlax.symm.trans hstrict) (by simp)

/-- **Legibility.** All lines that a compilation writes are legible, also when it fails. -/
theorem legible_run (options : Options) (source : String) :
    ∀ l ∈ (run options source).lines, l.Legible := by
  cases ha : TokenStream.ofSource source with
  | error e =>
    rw [run_of_error ha]
    simp [Run.lines]
  | ok a =>
    obtain ⟨r, b, es, hcourse, -⟩ := exists_unitCourse (δ := Array Event) options options id
      (passBound a) (TokenStream.genuine_ofSource ha)
    rw [run_of_plays ha hcourse.plays]
    intro l hl
    obtain ⟨event, hevent, hline⟩ := List.mem_filterMap.mp hl
    cases event <;> cases hline
    exact hcourse.account.legible trivial l hevent

end Jack
