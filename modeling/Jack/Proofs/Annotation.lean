import Jack.Proofs.Language

/-!
# Comments can be deleted

A listing of variables is written as comments, where it is asked for. Whoever reads the text can do
without: deleting the lines that start with two slashes gives the text of the same compilation
without the listings (`annotations_are_erasable`). Three facts meet here:

1. the two compilations fail together, with the same problem, because comments are no part of the
   course of a pass (`problem_run_of_strict`);
2. no line holds a line feed of its own, so the lines of the text are the lines written
   (`terminatedLines_listing`);
3. no instruction starts with a slash (`isComment_chars`).
-/

namespace Jack

/-! ## The lines of a text -/

/-- The lines of a text, each with the line feed that ends it. -/
def terminatedLines : List Char → List (List Char)
  | [] => []
  | c :: cs =>
    if c = '\n' then [c] :: terminatedLines cs
    else
      match terminatedLines cs with
      | [] => [[c]]
      | line :: rest => (c :: line) :: rest

/-- Whether the line starts with two slashes. -/
def isComment (line : List Char) : Bool := ['/', '/'].isPrefixOf line

/-- The text without the lines that start with two slashes. -/
def withoutComments (text : String) : String :=
  String.ofList ((terminatedLines text.toList).filter fun line => !isComment line).flatten

theorem terminatedLines_append {line : List Char} (h : '\n' ∉ line) (cs : List Char) :
    terminatedLines (line ++ '\n' :: cs) = (line ++ ['\n']) :: terminatedLines cs := by
  induction line with
  | nil => rfl
  | cons c line ih =>
    obtain ⟨hc, hline⟩ : '\n' ≠ c ∧ '\n' ∉ line := by simpa using h
    rw [List.cons_append, terminatedLines, if_neg hc.symm, ih hline]
    rfl

/-! ## The lines of a listing -/

/-- The line without the line feed that ends it. -/
def Line.content : Line → String
  | instruction i => i.text
  | comment text => "// " ++ text

/-- The characters of a line, with the line feed that ends it. -/
def Line.chars (l : Line) : List Char := l.content.toList ++ ['\n']

theorem Line.toList_text (l : Line) : l.text.toList = l.chars := by
  cases l <;> simp [text, chars, content]

theorem toList_listing (lines : List Line) :
    (Line.listing lines).toList = (lines.map Line.chars).flatten := by
  have hchars : String.toList ∘ Line.text = Line.chars := funext Line.toList_text
  simp [Line.listing, String.toList_join, List.flatMap_def, hchars]

theorem Line.Legible.isPrintable_content {l : Line} (h : l.Legible) : IsPrintable l.content := by
  cases l with
  | instruction i => exact Instruction.Legible.isPrintable h
  | comment text => exact IsPrintable.append (by decide) h

/-- A legible line holds no line feed of its own. -/
theorem Line.Legible.notMem_content {l : Line} (h : l.Legible) : '\n' ∉ l.content.toList := by
  intro hmem
  have := (h.isPrintable_content '\n' hmem).1
  simp at this

theorem terminatedLines_listing {lines : List Line} (h : ∀ l ∈ lines, l.Legible) :
    terminatedLines (Line.listing lines).toList = lines.map Line.chars := by
  rw [toList_listing]
  induction lines with
  | nil => rfl
  | cons l lines ih =>
    rw [List.forall_mem_cons] at h
    rw [List.map_cons, List.flatten_cons, Line.chars, List.append_assoc, List.singleton_append,
      terminatedLines_append h.1.notMem_content, ih h.2]

/-- The mnemonic of an instruction does not start with a slash. -/
theorem isComment_text (i : Instruction) (cs : List Char) :
    isComment (i.text.toList ++ cs) = false := by
  cases i with
  | operate operation => cases operation <;> rfl
  | _ => simp [Instruction.text, isComment, List.isPrefixOf]

/-- The comments of a listing are the lines that start with two slashes. -/
theorem isComment_chars (l : Line) : isComment l.chars = l.instruction?.isNone := by
  cases l with
  | instruction i => exact isComment_text i ['\n']
  | comment text => simp [isComment, Line.chars, Line.content, Line.instruction?, List.isPrefixOf]

/-- Without its comments a listing is that of its instructions. -/
theorem withoutComments_listing {lines : List Line} (h : ∀ l ∈ lines, l.Legible) :
    withoutComments (Line.listing lines) =
      Line.listing ((lines.filterMap Line.instruction?).map .instruction) := by
  have hfilter : (lines.map Line.chars).filter (fun line => !isComment line) =
      ((lines.filterMap Line.instruction?).map Line.instruction).map Line.chars := by
    clear h
    induction lines with
    | nil => rfl
    | cons l lines ih =>
      rw [List.map_cons, List.filter_cons, isComment_chars, ih]
      cases l with
      | instruction i => rfl
      | comment text => rfl
  rw [withoutComments, terminatedLines_listing h, hfilter, ← toList_listing, String.ofList_toList]

/-! ## Two compilations -/

/-- Options that are equally strict blame a text for the same problem. -/
theorem problem_run_of_strict (o o' : Options) (h : o.strict = o'.strict) (source : String) :
    (run o source).problem = (run o' source).problem := by
  cases ha : TokenStream.ofSource source with
  | error e => rw [run_of_error ha, run_of_error ha]
  | ok a =>
    obtain ⟨r, b, es, hcourse, -⟩ := Pass.exists_unitCourse (δ := Array Event) o o'
      (fun ho => h ▸ ho) (passBound a) (TokenStream.genuine_ofSource ha)
    rw [run_of_plays ha hcourse.plays]
    obtain ⟨es', hplays, -⟩ | ⟨⟨hlax, hstrict⟩, -⟩ := hcourse.follows
    · rw [run_of_plays ha hplays]
    · exact absurd (hlax.symm.trans (h.trans hstrict)) (by simp)

/-- **Annotations.** Deleting the comments of an annotated text gives the text without annotations,
and an annotated compilation fails with the problem of one without annotations. -/
theorem annotations_are_erasable (strict : Bool) (unit source : String) :
    (compile ⟨true, strict⟩ unit source).map withoutComments =
      compile ⟨false, strict⟩ unit source := by
  have hproblem := problem_run_of_strict ⟨true, strict⟩ ⟨false, strict⟩ rfl source
  cases hplain : (run ⟨false, strict⟩ source).problem with
  | some e =>
    rw [hplain] at hproblem
    rw [compile_error_iff.mpr ⟨e, hproblem, rfl⟩, compile_error_iff.mpr ⟨e, hplain, rfl⟩]
    rfl
  | none =>
    obtain ⟨c, hc, hscans⟩ := exists_of_run hplain
    -- the conditions on a class do not depend on the annotations
    have hc' : c.Admitted ⟨true, strict⟩ := hc
    have hlegible : ∀ l ∈ c.lines true, l.Legible := by
      rw [← (run_of_scans hc' hscans).2]
      exact legible_run _ source
    rw [compile_of_scans unit hc' hscans, compile_of_scans unit hc hscans]
    refine congrArg Except.ok ?_
    rw [withoutComments_listing hlegible, ClassDec.filterMap_lines, ClassDec.lines_false]

end Jack
