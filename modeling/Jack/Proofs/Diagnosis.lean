import Jack.Proofs.Annotation
import Jack.Proofs.Delivery.Outlet
import Jack.Proofs.Pass.Blame

/-!
# Diagnoses

A compilation that is not disturbed from outside fails for one sort of reason only: a fault of the
source text, which is reported with the unit and a line of the text. The devices do not fail, and
the bytes written are those of plain characters, so they can always be read back as a text. There is
a subroutine to hold every statement, parameter and local variable that is met.
-/

namespace Jack

variable {σ : Type} {sink : Sink σ} {state : σ} {options : Options} {unit source : String}

/-! ## Plain bytes -/

/-- All bytes are those of plain characters. -/
def IsAscii (bytes : ByteArray) : Prop := ∀ b ∈ bytes.data.toList, b.toNat < 128

theorem toList_data_toUTF8 (text : String) :
    text.toUTF8.data.toList = text.toList.flatMap String.utf8EncodeChar := by
  have h : (String.ofList text.toList).toByteArray.data.toList =
      text.toList.flatMap String.utf8EncodeChar := by
    rw [String.toByteArray_ofList, List.utf8Encode, List.data_toByteArray, List.toList_toArray]
  rwa [text.ofList_toList] at h

theorem isAscii_toUTF8 {text : String} (h : ∀ c ∈ text.toList, c.toNat < 128) :
    IsAscii text.toUTF8 := by
  intro b hb
  rw [toList_data_toUTF8] at hb
  obtain ⟨c, hc, hb⟩ := List.mem_flatMap.mp hb
  have hlt : c.val.toNat < 128 := h c hc
  rw [String.utf8EncodeChar, if_pos (by omega)] at hb
  obtain rfl := List.mem_singleton.mp hb
  rw [UInt8.toNat_ofNat']
  omega

/-- Everything that is written is made of printable characters and line feeds. -/
theorem toNat_lt_of_mem_text {c : Char} (h : c ∈ (run options source).text.toList) :
    c.toNat < 128 := by
  rw [Run.text, toList_listing] at h
  obtain ⟨chars, hchars, hc⟩ := List.mem_flatten.mp h
  obtain ⟨l, hl, rfl⟩ := List.mem_map.mp hchars
  obtain hc | hc := List.mem_append.mp hc
  · have := (legible_run options source l hl).isPrintable_content c hc
    omega
  · obtain rfl := List.mem_singleton.mp hc
    decide

/-- With a sink that accepts everything the whole text is written. -/
theorem written_emit (hsink : sink.Accepts state) :
    (emit options none sink state unit source).written = (run options source).text.toUTF8 := by
  obtain ⟨last, hlast⟩ := hsink.exists_hearAll (run options source)
  rw [← hearAll_run] at hlast
  rw [emit, emission_drive, Outlet.empty, handleAll_of_hearAll_ok hlast]
  simp [emission, Line.bytes, Run.text, Run.lines]

/-! ## Wordings -/

/-- The words in which a statement or a declaration without a subroutine would be reported. -/
def strayWordings : List String :=
  ["statement outside of a subroutine", "declaration outside of a subroutine"]

theorem message_expected_notMem (what : String) (found : TokenKind) :
    (Fault.expected what found).message ∉ strayWordings := by
  have hmessage : (Fault.expected what found).message =
      "expected " ++ what ++ ", encountered " ++ found.mention := rfl
  have hhead : (Fault.expected what found).message.toList.head? = some 'e' := by
    rw [hmessage]
    simp
  intro hmem
  rw [strayWordings, List.mem_pair] at hmem
  obtain hstray | hstray := hmem <;> simp [hstray] at hhead

theorem message_stringTooLong_notMem : Fault.stringTooLong.message ∉ strayWordings := by
  have hmessage : Fault.stringTooLong.message = "string constant exceeds 32767 characters" := by
    decide +kernel
  simp [hmessage, strayWordings]

theorem message_tooManyArguments_notMem : Fault.tooManyArguments.message ∉ strayWordings := by
  have hmessage : Fault.tooManyArguments.message = "too many arguments" := rfl
  simp [hmessage, strayWordings]

theorem message_notMem_strayWordings {e : Problem} (h : (run options source).problem = some e)
    (hcategory : e.fault.category = .syntactic) : e.fault.message ∉ strayWordings := by
  cases hfault : e.fault with
  | expected what found => exact message_expected_notMem what found
  | stringTooLong => exact message_stringTooLong_notMem
  | tooManyArguments => exact message_tooManyArguments_notMem
  | strayStatement => exact absurd hfault (not_stray_of_problem h).1
  | strayDeclaration => exact absurd hfault (not_stray_of_problem h).2
  | _ =>
    rw [hfault] at hcategory
    cases hcategory

/-! ## Results -/

/-- **Diagnosis.** Without a sink, or with one that accepts everything, a compilation never fails
for a device. Its errors name the unit and a line of the text, and no fault of the grammar is
reported as a stray statement or declaration. All bytes written are plain, and those of a
compilation that succeeds read back as its text. -/
theorem errors_are_diagnoses (options : Options) (sink : Sink σ) (state : σ)
    (hsink : sink.Accepts state) (unit source : String) (result : Except Error String)
    (hresult : result = compile options unit source ∨
      result = (compileWith options sink state unit source).1) :
    (∀ text, result ≠ .error (.io text)) ∧
    (∀ d, result = .error (.source d) →
      d.unit = unit ∧ 1 ≤ d.line ∧ d.line ≤ 1 + source.toList.count '\n' ∧
      (d.fault.category = .syntactic → d.fault.message ∉ strayWordings)) ∧
    IsAscii (emit options none sink state unit source).written ∧
    ∀ text, result = .ok text →
      String.fromUTF8? (emit options none sink state unit source).written = some text := by
  have hcompile : result = compile options unit source := by
    obtain rfl | rfl := hresult
    · rfl
    · obtain ⟨last, hlast⟩ := hsink.exists_hearAll (run options source)
      rw [compileWith_of_heard_ok hlast]
  subst hcompile
  rw [written_emit hsink]
  refine ⟨fun text h => ?_, fun d h => ?_, isAscii_toUTF8 fun c => toNat_lt_of_mem_text,
    fun text h => ?_⟩
  · obtain ⟨e, -, he⟩ := compile_error_iff.mp h
    cases he
  · obtain ⟨e, hproblem, he⟩ := compile_error_iff.mp h
    cases he
    obtain ⟨hstart, hstop⟩ := line_of_problem hproblem
    exact ⟨rfl, hstart, hstop, message_notMem_strayWordings hproblem⟩
  · obtain ⟨-, rfl⟩ := compile_ok_iff.mp h
    exact fromUTF8?_toUTF8 _

/-- A name that stands for nothing, on the second of two lines. -/
theorem errors_are_diagnoses_on_second_line :
    Collector.sink.Accepts { limit := none } ∧
    (compileWith ⟨false, false⟩ Collector.sink { limit := none } "A"
      "class A \x7b function void f() \x7b\n let x = 1; \x7d \x7d").1 =
        .error (.source ⟨"A", 2, .unresolved "x"⟩) ∧
    2 ≤ 1 + "class A \x7b function void f() \x7b\n let x = 1; \x7d \x7d".toList.count '\n' := by
  have hresult : (compileWith ⟨false, false⟩ Collector.sink { limit := none } "A"
      "class A \x7b function void f() \x7b\n let x = 1; \x7d \x7d").1 =
        .error (.source ⟨"A", 2, .unresolved "x"⟩) := by
    decide +kernel
  obtain ⟨-, hdiagnosis, -⟩ := errors_are_diagnoses ⟨false, false⟩ Collector.sink _
    Collector.accepts "A" "class A \x7b function void f() \x7b\n let x = 1; \x7d \x7d" _ (.inr rfl)
  exact ⟨Collector.accepts, hresult, (hdiagnosis _ hresult).2.2.1⟩

end Jack
