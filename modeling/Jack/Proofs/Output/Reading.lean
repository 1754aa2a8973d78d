import Jack.Proofs.Annotation
import Jack.Proofs.Text.Lines
import Jack.Proofs.Text.Pieces

/-!
# Code can be read back

An instruction is written as words with a blank between two of them, on a line of its own. A reader
splits the text at its line feeds and each line at its blanks; the first word and the number of
words tell which instruction it is.

1. `Instruction.text_eq_intercalate` gives the words of an instruction, and `ofWords?_words` gets it
   back from them: names of segments and operations through their tables, numbers through their
   decimal digits.
2. A name without white space brings no further blank and no line feed into the text, so the words
   and the lines are found again (`readLine_text`, `readCode_listing`).
3. The names that a compilation writes are made of letters, digits and a few signs (`legible_run`),
   so all code that it writes can be read back.
-/

namespace Jack

/-! ## Words -/

/-- The text holds no white space. -/
def Blankless (text : String) : Prop := ∀ c ∈ text.toList, Text.isBlank c = false

/-- The name in an instruction, if it holds one. -/
def Instruction.name? : Instruction → Option String
  | label name | goto name | ifGoto name | call name _ | function name _ => some name
  | push _ _ | pop _ _ | operate _ | return_ => none

namespace Instruction

/-- The words that an instruction is written with. -/
def words : Instruction → List String
  | push segment index => ["push", segment.text, toString index]
  | pop segment index => ["pop", segment.text, toString index]
  | operate operation => [operation.text]
  | label name => ["label", name]
  | goto name => ["goto", name]
  | ifGoto name => ["if-goto", name]
  | call name arguments => ["call", name, toString arguments]
  | function name locals => ["function", name, toString locals]
  | return_ => ["return"]

theorem words_ne_nil (i : Instruction) : i.words ≠ [] := by
  cases i <;> simp [words]

theorem text_eq_intercalate (i : Instruction) : i.text = " ".intercalate i.words := by
  cases i <;> simp [text, words, ← String.toList_inj]

end Instruction

instance (text : String) : Decidable (Blankless text) := List.decidableBAll _ text.toList

/-- The characters of names in code are no white space. -/
theorem IsPath.blankless {text : String} (h : IsPath text) : Blankless text := by
  intro c hc
  have hrange := toNat_of_isPathChar (h c hc)
  rw [Text.isBlank, Bool.eq_false_iff, Ne, Text.Ranges.contains_iff]
  rintro ⟨range, hmem, hlow, hhigh⟩
  have houtside : ∀ range ∈ Text.blankRanges, range.2 < 33 ∨ 127 ≤ range.1 := by decide
  have := houtside range hmem
  omega

/-- Only the name can bring white space into the words. -/
theorem Instruction.blankless_words {i : Instruction} (h : ∀ name ∈ i.name?, Blankless name) :
    ∀ word ∈ i.words, Blankless word := by
  have hsegment : ∀ s : Segment, Blankless s.text := fun s => by cases s <;> decide
  have hnumber : ∀ n : Nat, Blankless (toString n) := fun n => (isPath_toString n).blankless
  cases i with
  | push s n | pop s n =>
    simp only [words, List.mem_cons, List.not_mem_nil, or_false, forall_eq_or_imp, forall_eq]
    exact ⟨by decide, hsegment s, hnumber n⟩
  | operate o =>
    simp only [words, List.forall_mem_singleton]
    cases o <;> decide
  | label name | goto name | ifGoto name =>
    simp only [words, List.mem_cons, List.not_mem_nil, or_false, forall_eq_or_imp, forall_eq]
    exact ⟨by decide, h name rfl⟩
  | call name n | function name n =>
    simp only [words, List.mem_cons, List.not_mem_nil, or_false, forall_eq_or_imp, forall_eq]
    exact ⟨by decide, h name rfl, hnumber n⟩
  | return_ =>
    simp only [words, List.forall_mem_singleton]
    decide

/-! ## Reading words -/

/-- The segment with this name. -/
def Segment.ofText? (text : String) : Option Segment :=
  [constant, local_, argument, this_, that, pointer, temp, static].find? fun s => s.text = text

/-- The operation with this mnemonic. -/
def Operation.ofText? (text : String) : Option Operation :=
  [add, sub, neg, eq, gt, lt, and, or, not].find? fun o => o.text = text

theorem Segment.ofText?_text (s : Segment) : ofText? s.text = some s := by
  cases s <;> decide

theorem Operation.ofText?_text (o : Operation) : ofText? o.text = some o := by
  cases o <;> decide

namespace Instruction

/-- The instruction that is written with these words. -/
def ofWords? : List String → Option Instruction
  | ["return"] => some return_
  | [word] => (Operation.ofText? word).map operate
  | ["label", name] => some (label name)
  | ["goto", name] => some (goto name)
  | ["if-goto", name] => some (ifGoto name)
  | ["push", segment, index] => do return push (← Segment.ofText? segment) (← index.toNat?)
  | ["pop", segment, index] => do return pop (← Segment.ofText? segment) (← index.toNat?)
  | ["call", name, arguments] => arguments.toNat?.map (call name)
  | ["function", name, locals] => locals.toNat?.map (function name)
  | _ => none

theorem ofWords?_words (i : Instruction) : ofWords? i.words = some i := by
  cases i with
  | push s n | pop s n => simp [words, ofWords?, Segment.ofText?_text]
  | operate o => cases o <;> decide
  | label name | goto name | ifGoto name | call name n | function name n | return_ =>
    simp [words, ofWords?]

end Instruction

/-! ## Reading text -/

/-- Read the words on a line. -/
def readLine (line : List Char) : Option Instruction :=
  Instruction.ofWords? ((Text.split ' ' line).map String.ofList)

/-- Read code: an instruction on each line. -/
def readCode (text : String) : Option (List Instruction) :=
  (textLines text.toList).mapM readLine

theorem Blankless.notMem {text : String} (h : Blankless text) {c : Char}
    (hc : Text.isBlank c = true) : c ∉ text.toList := fun hmem =>
  absurd hc (Bool.eq_false_iff.mp (h c hmem))

variable {i : Instruction} {code : List Instruction}

/-- The characters of an instruction are those of its words, with blanks between them. -/
theorem toList_text (i : Instruction) :
    i.text.toList = [' '].intercalate (i.words.map String.toList) := by
  rw [i.text_eq_intercalate, String.toList_intercalate]
  rfl

theorem notMem_words (h : ∀ name ∈ i.name?, Blankless name) {c : Char}
    (hc : Text.isBlank c = true) : ∀ word ∈ i.words.map String.toList, c ∉ word :=
  List.forall_mem_map.mpr fun word hword => (i.blankless_words h word hword).notMem hc

/-- An instruction is read back from its text. -/
theorem readLine_text (h : ∀ name ∈ i.name?, Blankless name) : readLine i.text.toList = some i := by
  have hne : i.words.map String.toList ≠ [] := by simpa using i.words_ne_nil
  rw [readLine, toList_text, Text.split_intercalate (notMem_words h (by decide)) hne]
  simp [Function.comp_def, Instruction.ofWords?_words]

/-- The text of an instruction is on one line. -/
theorem newline_notMem_text (h : ∀ name ∈ i.name?, Blankless name) : '\n' ∉ i.text.toList := by
  rw [toList_text]
  exact Text.notMem_intercalate (by decide) (notMem_words h (by decide))

/-- Code is read back from its text. -/
theorem readCode_listing (h : ∀ i ∈ code, ∀ name ∈ i.name?, Blankless name) :
    readCode (Line.listing (code.map .instruction)) = some code := by
  have htext : (Line.listing (code.map .instruction)).toList =
      (code.map fun i => i.text.toList).flatMap fun line => line ++ ['\n'] := by
    simp [toList_listing, Line.chars, Line.content, List.flatMap_def, Function.comp_def]
  have hlines : ∀ line ∈ code.map fun i => i.text.toList, '\n' ∉ line :=
    List.forall_mem_map.mpr fun i hi => newline_notMem_text (h i hi)
  rw [readCode, htext, textLines_flatMap hlines]
  clear htext hlines
  induction code with
  | nil => rfl
  | cons i code ih =>
    obtain ⟨hi, hcode⟩ := List.forall_mem_cons.mp h
    rw [List.map_cons, List.mapM_cons, readLine_text hi, ih hcode]
    rfl

/-! ## Compilations -/

/-- The names that a compilation writes hold no white space, also when it fails. -/
theorem blankless_of_mem_lines {options : Options} {source name : String}
    (hi : .instruction i ∈ (run options source).lines) (hname : name ∈ i.name?) :
    Blankless name := by
  have hlegible : i.Legible := legible_run options source _ hi
  cases i with
  | push | pop | operate | return_ => cases hname
  | label | goto | ifGoto | call | function =>
    cases hname
    exact IsPath.blankless hlegible

/-- Without annotations nothing but instructions is written. -/
theorem exists_lines_of_compile {strict : Bool} {unit source text : String}
    (h : compile ⟨false, strict⟩ unit source = .ok text) :
    ∃ code : List Instruction, (run ⟨false, strict⟩ source).lines = code.map .instruction := by
  obtain ⟨c, hc, hscans⟩ := exists_of_compile h
  exact ⟨c.code, (run_of_scans hc hscans).2.trans c.lines_false⟩

/-- **Code is unambiguous.** Code whose names hold no white space is read back from its text, so no
other code has that text. All names in code that is written in a compilation are such names, and
the text of a successful compilation without annotations gives back what was written. -/
theorem code_is_unambiguous :
    (∀ code : List Instruction, (∀ i ∈ code, ∀ name ∈ i.name?, Blankless name) →
      readCode (Line.listing (code.map .instruction)) = some code ∧
      ∀ code' : List Instruction, (∀ i ∈ code', ∀ name ∈ i.name?, Blankless name) →
        Line.listing (code.map .instruction) = Line.listing (code'.map .instruction) →
        code = code') ∧
    (∀ options source i, .instruction i ∈ (run options source).lines →
      ∀ name ∈ i.name?, Blankless name) ∧
    ∀ strict unit source text, compile ⟨false, strict⟩ unit source = .ok text →
      ∃ code : List Instruction, (run ⟨false, strict⟩ source).lines = code.map .instruction ∧
        readCode text = some code := by
  refine ⟨fun code h => ⟨readCode_listing h, fun code' h' htext => ?_⟩,
    fun options source i hi name hname => blankless_of_mem_lines hi hname,
    fun strict unit source text h => ?_⟩
  · rw [← Option.some_inj, ← readCode_listing h, ← readCode_listing h', htext]
  · obtain ⟨code, hcode⟩ := exists_lines_of_compile h
    obtain ⟨-, rfl⟩ := compile_ok_iff.mp h
    refine ⟨code, hcode, ?_⟩
    rw [Run.text, hcode]
    refine readCode_listing fun i hi name hname => ?_
    have hmem : .instruction i ∈ (run ⟨false, strict⟩ source).lines :=
      hcode ▸ List.mem_map_of_mem hi
    exact blankless_of_mem_lines hmem hname

/-- A function that calls itself under a condition. Names that look like mnemonics and numbers are
names all the same. -/
def recursiveCode : List Instruction :=
  [.function "push.return" 10, .push .constant 7, .operate .not, .ifGoto "7", .push .local_ 0,
    .call "push.return" 1, .pop .temp 0, .label "7", .return_]

theorem recursiveCode_reads_back :
    (∀ i ∈ recursiveCode, ∀ name ∈ i.name?, Blankless name) ∧
    readCode ("function push.return 10\npush constant 7\nnot\nif-goto 7\npush local 0\n" ++
      "call push.return 1\npop temp 0\nlabel 7\nreturn\n") = some recursiveCode := by
  have h : ∀ i ∈ recursiveCode, ∀ name ∈ i.name?, Blankless name := by
    simp only [recursiveCode, List.mem_cons, List.not_mem_nil, or_false, forall_eq_or_imp,
      forall_eq, Instruction.name?, Option.mem_def, Option.some.injEq, forall_eq', reduceCtorEq,
      false_implies, implies_true]
    decide
  have htext : Line.listing (recursiveCode.map .instruction) =
      "function push.return 10\npush constant 7\nnot\nif-goto 7\npush local 0\n" ++
        "call push.return 1\npop temp 0\nlabel 7\nreturn\n" := by
    decide
  exact ⟨h, htext ▸ (code_is_unambiguous.1 recursiveCode h).1⟩

end Jack
