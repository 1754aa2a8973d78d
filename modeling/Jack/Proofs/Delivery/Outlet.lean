import Jack.Proofs.Delivery.Sink

/-!
# Outlets that fill up

Compiling to an outlet with a limit is compared with compiling to one without. As long as everything
fits there is no difference. Otherwise the output is cut at the limit, and the compilation ends
there with the failure of the outlet.

1. `Emission` is what a compilation leaves behind: its result, the bytes written and the sink.
2. `Outlet.write_join`: it does not matter in which pieces a text is written.
3. `emission_handleAll_of_le` and `emission_handleAll_of_lt` compare what the two sets of devices
   make of some events, by induction on them.
4. The compilation drives both through the events of one journal (`emission_drive`), so the
   comparison extends to the whole compilation (`output_cut_at_limit`).
-/

namespace Jack

open Pass (handleAll handleAll_append_ok)

variable {σ : Type} {sink : Sink σ} {state : σ} {events : List Event} {n : Nat}
  {unit : String} {written : ByteArray}

/-- What is left after a compilation. -/
structure Emission (σ : Type) where
  result : Except Error Unit
  written : ByteArray
  state : σ

/-- The end of a compilation, without the limit of the outlet. -/
def emission : EStateM.Result Error (Devices σ) Unit → Emission σ
  | .ok _ devices => ⟨.ok (), devices.outlet.written, devices.state⟩
  | .error e devices => ⟨.error e, devices.outlet.written, devices.state⟩

/-- Compile to an outlet with a limit. -/
def emit (options : Options) (limit : Option Nat) (sink : Sink σ) (state : σ)
    (unit source : String) : Emission σ :=
  emission (drive options source (Devices.mk unit (Outlet.empty limit) sink state))

/-! ## Writing to an outlet with a limit -/

theorem extract_append_of_le {a b : ByteArray} (h : n ≤ a.size) :
    (a ++ b).extract 0 n = a.extract 0 n := by
  have hempty : b.extract 0 (n - a.size) = ByteArray.empty :=
    ByteArray.extract_eq_empty_iff.mpr (by omega)
  rw [ByteArray.extract_append, Nat.zero_sub, hempty, ByteArray.append_empty]

theorem extract_append_of_size_le {a b : ByteArray} (h : a.size ≤ n) :
    (a ++ b).extract 0 n = a ++ b.extract 0 (n - a.size) := by
  have hall : a.extract 0 n = a := by
    ext1
    rw [ByteArray.data_extract]
    exact Array.extract_eq_self_of_le h
  rw [ByteArray.extract_append, hall, Nat.zero_sub]

theorem Outlet.write_of_fits {text : String} (h : text.toUTF8.size ≤ n - written.size) :
    Outlet.write text ⟨some n, written⟩ = .ok () ⟨some n, written ++ text.toUTF8⟩ := by
  have hroom : text.utf8ByteSize ≤ n - written.size := h
  simp [Outlet.write, hroom]

theorem Outlet.write_of_not_fits {text : String} (h : n - written.size < text.toUTF8.size) :
    Outlet.write text ⟨some n, written⟩ =
      .error Outlet.full ⟨some n, written ++ text.toUTF8.extract 0 (n - written.size)⟩ := by
  have hroom : ¬ text.utf8ByteSize ≤ n - written.size := Nat.not_le_of_lt h
  simp [Outlet.write, hroom]

theorem Outlet.write_of_le {text : String} (h : (written ++ text.toUTF8).size ≤ n) :
    Outlet.write text ⟨some n, written⟩ = .ok () ⟨some n, written ++ text.toUTF8⟩ := by
  rw [ByteArray.size_append] at h
  exact Outlet.write_of_fits (Nat.le_sub_of_add_le' h)

theorem Outlet.write_of_lt {text : String} (hw : written.size ≤ n)
    (h : n < (written ++ text.toUTF8).size) :
    Outlet.write text ⟨some n, written⟩ =
      .error Outlet.full ⟨some n, (written ++ text.toUTF8).extract 0 n⟩ := by
  rw [ByteArray.size_append] at h
  rw [extract_append_of_size_le hw]
  exact Outlet.write_of_not_fits (by omega)

/-- A text may be written in two pieces. -/
theorem Outlet.write_append (x y : String) :
    Outlet.write (x ++ y) = (do Outlet.write x; Outlet.write y) := by
  funext outlet
  obtain ⟨limit, written⟩ := outlet
  have hbytes : (x ++ y).toUTF8 = x.toUTF8 ++ y.toUTF8 := String.toByteArray_append
  cases limit with
  | none =>
    simp only [bind, EStateM.bind, Outlet.write_unlimited, hbytes, ByteArray.append_assoc]
  | some n =>
    have hsize : (x ++ y).toUTF8.size = x.toUTF8.size + y.toUTF8.size := by
      rw [hbytes, ByteArray.size_append]
    by_cases hx : x.toUTF8.size ≤ n - written.size
    · have hroom : n - (written ++ x.toUTF8).size = n - written.size - x.toUTF8.size := by
        rw [ByteArray.size_append, Nat.sub_add_eq]
      simp only [bind, EStateM.bind, Outlet.write_of_fits hx]
      by_cases hy : y.toUTF8.size ≤ n - (written ++ x.toUTF8).size
      · rw [Outlet.write_of_fits hy, Outlet.write_of_fits (by omega), hbytes,
          ByteArray.append_assoc]
      · rw [Outlet.write_of_not_fits (Nat.lt_of_not_le hy),
          Outlet.write_of_not_fits (by omega), hbytes, extract_append_of_size_le hx, hroom,
          ByteArray.append_assoc]
    · have hlt := Nat.lt_of_not_le hx
      simp only [bind, EStateM.bind, Outlet.write_of_not_fits hlt]
      rw [Outlet.write_of_not_fits (by omega), hbytes, extract_append_of_le hlt.le]

/-- A text may be written in pieces. -/
theorem Outlet.write_join (pieces : List String) :
    Outlet.write (String.join pieces) = pieces.forM Outlet.write := by
  induction pieces with
  | nil =>
    funext outlet
    obtain ⟨limit, written⟩ := outlet
    cases limit <;> simp [Outlet.write, String.join, pure, EStateM.pure]
  | cons piece pieces ih =>
    rw [String.join_cons, Outlet.write_append, ih]
    rfl

/-! ## Events for an outlet with a limit -/

/-- What has been written stays. -/
theorem exists_written_handleAll (unit : String) (sink : Sink σ) (events : List Event)
    (written : ByteArray) (state : σ) : ∃ rest,
      (emission (handleAll events (Devices.mk unit ⟨none, written⟩ sink state))).written =
        written ++ rest := by
  induction events, written, state using sink.events_induction with
  | nil written state =>
    exact ⟨ByteArray.empty, by simp [handleAll, pure, EStateM.pure, emission]⟩
  | line l events written state ih =>
    rw [handleAll_cons_of_ok (handle_line_unlimited l)]
    obtain ⟨rest, hrest⟩ := ih
    exact ⟨l.text.toUTF8 ++ rest, by rw [hrest, ByteArray.append_assoc]⟩
  | heard event events written state between hline hhear ih =>
    rw [handleAll_cons_of_ok (handle_of_hear_ok hline hhear)]
    exact ih
  | refused event events written state failure between hline hhear =>
    rw [handleAll_cons_of_error (handle_of_hear_error hline hhear)]
    exact ⟨ByteArray.empty, by simp [emission]⟩

/-- If everything fits, the limit does not matter. -/
theorem emission_handleAll_of_le
    (h : (emission
      (handleAll events (Devices.mk unit ⟨none, written⟩ sink state))).written.size ≤ n) :
    emission (handleAll events (Devices.mk unit ⟨some n, written⟩ sink state)) =
      emission (handleAll events (Devices.mk unit ⟨none, written⟩ sink state)) := by
  induction events, written, state using sink.events_induction with
  | nil written state => rfl
  | line l events written state ih =>
    rw [handleAll_cons_of_ok (handle_line_unlimited l)] at h ⊢
    obtain ⟨rest, hrest⟩ :=
      exists_written_handleAll unit sink events (written ++ l.text.toUTF8) state
    have hfits : (written ++ l.text.toUTF8).size ≤ n := by
      rw [hrest, ByteArray.size_append] at h
      omega
    rw [handleAll_cons_of_ok (handle_line_of_ok (Outlet.write_of_le hfits))]
    exact ih h
  | heard event events written state between hline hhear ih =>
    rw [handleAll_cons_of_ok (handle_of_hear_ok hline hhear)] at h ⊢
    rw [handleAll_cons_of_ok (handle_of_hear_ok hline hhear)]
    exact ih h
  | refused event events written state failure between hline hhear =>
    rw [handleAll_cons_of_error (handle_of_hear_error hline hhear),
      handleAll_cons_of_error (handle_of_hear_error hline hhear)]
    rfl

/-- Otherwise the output is cut. The sink has by then taken what it heard of the first events. -/
theorem emission_handleAll_of_lt (hw : written.size ≤ n)
    (h : n < (emission
      (handleAll events (Devices.mk unit ⟨none, written⟩ sink state))).written.size) :
    ∃ k cut, sink.hearAll (events.take k) state = .ok () cut ∧
      emission (handleAll events (Devices.mk unit ⟨some n, written⟩ sink state)) =
        ⟨.error (.io Outlet.full),
          (emission
            (handleAll events (Devices.mk unit ⟨none, written⟩ sink state))).written.extract 0 n,
          cut⟩ := by
  induction events, written, state using sink.events_induction with
  | nil written state => exact absurd hw (Nat.not_le_of_lt h)
  | line l events written state ih =>
    rw [handleAll_cons_of_ok (handle_line_unlimited l)] at h ⊢
    by_cases hfits : (written ++ l.text.toUTF8).size ≤ n
    · rw [handleAll_cons_of_ok (handle_line_of_ok (Outlet.write_of_le hfits))]
      obtain ⟨k, cut, hcut, heq⟩ := ih hfits h
      exact ⟨k + 1, cut, hcut, heq⟩
    · have hover := Nat.lt_of_not_le hfits
      rw [handleAll_cons_of_error (handle_line_of_error (Outlet.write_of_lt hw hover))]
      obtain ⟨rest, hrest⟩ :=
        exists_written_handleAll unit sink events (written ++ l.text.toUTF8) state
      refine ⟨0, state, rfl, ?_⟩
      rw [hrest, extract_append_of_le hover.le]
      rfl
  | heard event events written state between hline hhear ih =>
    rw [handleAll_cons_of_ok (handle_of_hear_ok hline hhear)] at h ⊢
    rw [handleAll_cons_of_ok (handle_of_hear_ok hline hhear)]
    obtain ⟨k, cut, hcut, heq⟩ := ih hw h
    exact ⟨k + 1, cut, (Sink.hearAll_cons_of_ok hhear).trans hcut, heq⟩
  | refused event events written state failure between hline hhear =>
    rw [handleAll_cons_of_error (handle_of_hear_error hline hhear)] at h
    exact absurd hw (Nat.not_le_of_lt h)

/-! ## What a collector keeps -/

section Collector

variable {c c' : Collector} {event : Event} {failure : String}

theorem Collector.isPrefix_of_hear_ok (h : Collector.sink.hear event c = .ok () c') :
    c.tokens.toList <+: c'.tokens.toList := by
  cases event with
  | token t =>
    change Collector.receive t c = .ok () c' at h
    unfold Collector.receive at h
    split at h <;> cases h
    simp
  | finish | line | note =>
    cases h
    exact List.prefix_rfl

theorem Collector.eq_of_hear_error (h : Collector.sink.hear event c = .error failure c') :
    c' = c := by
  cases event with
  | token t =>
    change Collector.receive t c = .error failure c' at h
    unfold Collector.receive at h
    split at h <;> cases h
    rfl
  | finish | line | note => cases h

/-- A collector never lets go of a token. -/
theorem Collector.isPrefix_emission (events : List Event) (written : ByteArray) (c : Collector) :
    c.tokens.toList <+: (emission (handleAll events
      (Devices.mk unit ⟨none, written⟩ Collector.sink c))).state.tokens.toList := by
  induction events, written, c using Collector.sink.events_induction with
  | nil written c => exact List.prefix_rfl
  | line l events written c ih =>
    rw [handleAll_cons_of_ok (handle_line_unlimited l)]
    exact ih
  | heard event events written c between hline hhear ih =>
    rw [handleAll_cons_of_ok (handle_of_hear_ok hline hhear)]
    exact (Collector.isPrefix_of_hear_ok hhear).trans ih
  | refused event events written c failure between hline hhear =>
    rw [handleAll_cons_of_error (handle_of_hear_error hline hhear),
      Collector.eq_of_hear_error hhear]
    exact List.prefix_rfl

/-- What a collector has after the first events it still has in the end. -/
theorem Collector.isPrefix_of_take {events : List Event} {k : Nat}
    (h : Collector.sink.hearAll (events.take k) c = .ok () c') (written : ByteArray) :
    c'.tokens.toList <+: (emission (handleAll events
      (Devices.mk unit ⟨none, written⟩ Collector.sink c))).state.tokens.toList := by
  rw [← List.take_append_drop k events, handleAll_append_ok (handleAll_of_hearAll_ok h)]
  exact Collector.isPrefix_emission _ _ c'

end Collector

/-! ## Whole compilations -/

/-- A compilation that no device stops ends as its journal does. -/
theorem emission_drive (options : Options) (source : String) (devices : Devices σ) :
    emission (drive options source devices) =
      { emission (handleAll (run options source).events.toList devices) with
        result := do
          (emission (handleAll (run options source).events.toList devices)).result
          (run options source).outcome devices.unit } := by
  rw [drive_eq_replay, Run.replay, Run.outcome]
  cases hdevices : (handleAll (run options source).events.toList : EStateM Error (Devices σ) Unit)
      devices with
  | error e after => rfl
  | ok u after =>
    rw [← unit_of_handleAll_ok hdevices]
    cases (run options source).problem <;> rfl

/-- **Cutting.** If the output fits into an outlet with a limit, nothing changes. Otherwise the
outlet holds the first bytes of the output, the result is the failure of the outlet, and the tokens
consumed are some first ones of those consumed without a limit. It does not matter whether a line is
written at once or in pieces. -/
theorem output_cut_at_limit (options : Options) (sink : Sink σ) (state : σ) (unit source : String)
    (n : Nat) :
    ((emit options none sink state unit source).written.size ≤ n →
      emit options (some n) sink state unit source = emit options none sink state unit source) ∧
    (n < (emit options none sink state unit source).written.size →
      (emit options (some n) sink state unit source).written =
        (emit options none sink state unit source).written.extract 0 n ∧
      (emit options (some n) sink state unit source).result = .error (.io Outlet.full)) ∧
    (∀ collector : Collector,
      (emit options (some n) Collector.sink collector unit source).state.tokens.toList <+:
        (emit options none Collector.sink collector unit source).state.tokens.toList) ∧
    ∀ (l : Line) (pieces : List String), l.text = String.join pieces →
      Outlet.write l.text = pieces.forM Outlet.write := by
  simp only [emit, emission_drive, Outlet.empty]
  refine ⟨fun h => ?_, fun h => ?_, fun collector => ?_, fun l pieces h => ?_⟩
  · rw [emission_handleAll_of_le h]
  · obtain ⟨k, cut, -, hcut⟩ := emission_handleAll_of_lt (Nat.zero_le n) h
    rw [hcut]
    exact ⟨rfl, rfl⟩
  · by_cases h : (emission (handleAll (run options source).events.toList
        (Devices.mk unit ⟨none, ByteArray.empty⟩ Collector.sink collector))).written.size ≤ n
    · rw [emission_handleAll_of_le h]
    · obtain ⟨k, cut, hheard, hcut⟩ :=
        emission_handleAll_of_lt (Nat.zero_le n) (Nat.lt_of_not_le h)
      rw [hcut]
      exact Collector.isPrefix_of_take hheard _
  · rw [h, Outlet.write_join]

/-- Eight of the 38 bytes that a small class is compiled to. -/
theorem output_cut_at_eight :
    (emit ⟨false, false⟩ none Sink.silent () "A"
      "class A \x7b function void f() \x7b return; \x7d \x7d").written.size = 38 ∧
    (emit ⟨false, false⟩ (some 8) Sink.silent () "A"
      "class A \x7b function void f() \x7b return; \x7d \x7d").written = "function".toUTF8 ∧
    (emit ⟨false, false⟩ (some 8) Sink.silent () "A"
      "class A \x7b function void f() \x7b return; \x7d \x7d").result =
        .error (.io Outlet.full) := by
  have hsize : (emit ⟨false, false⟩ none Sink.silent () "A"
      "class A \x7b function void f() \x7b return; \x7d \x7d").written.size = 38 := by
    decide +kernel
  have hfirst : (emit ⟨false, false⟩ none Sink.silent () "A"
      "class A \x7b function void f() \x7b return; \x7d \x7d").written.extract 0 8 =
        "function".toUTF8 := by
    decide +kernel
  obtain ⟨-, hcut, -⟩ := output_cut_at_limit ⟨false, false⟩ Sink.silent () "A"
    "class A \x7b function void f() \x7b return; \x7d \x7d" 8
  obtain ⟨hwritten, hresult⟩ := hcut (by omega)
  exact ⟨hsize, hwritten.trans hfirst, hresult⟩

end Jack
