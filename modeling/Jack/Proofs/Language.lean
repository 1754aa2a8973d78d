import Jack.Proofs.Delivery.Devices
import Jack.Proofs.Pass.Complete
import Jack.Proofs.Pass.Sound
import Jack.Proofs.Token.Scans

/-!
# The language of the compiler

A text is compiled in one pass, without a tree. What comes out is still what a compiler with a tree
would give:

1. a run succeeds exactly on the texts that scan to the tokens of a class that meets the conditions,
   and it writes the lines of that class (`run_of_scans`, `exists_of_run`);
2. the text of a valid class is the listing of its code (`compile_eq_listing`);
3. a text is compiled exactly if it is one of the language (`compiles_iff`).
-/

namespace Jack

/-! ## Declared names -/

theorem VariableDec.mem_tokens {d : VariableDec} {name : String} (h : name ∈ d.names) :
    .identifier name ∈ d.tokens := by
  obtain rfl | h := List.mem_cons.mp h
  · simp [tokens]
  · have hmore : .identifier name ∈
        d.more.flatMap fun other => [.symbol .comma, TokenKind.identifier other] :=
      List.mem_flatMap.mpr ⟨name, h, by simp⟩
    exact List.mem_cons_of_mem _ (List.mem_cons_of_mem _ (List.mem_append_left _ hmore))

theorem Parameter.mem_listTokens {ps : List Parameter} {p : Parameter} (h : p ∈ ps) :
    .identifier p.name ∈ listTokens ps := by
  have hown : ∀ q : Parameter, TokenKind.identifier q.name ∈ q.tokens := fun q => by simp [tokens]
  cases ps with
  | nil => cases h
  | cons q more =>
    obtain rfl | h := List.mem_cons.mp h
    · exact List.mem_append_left _ (hown p)
    · exact List.mem_append_right _
        (List.mem_flatMap.mpr ⟨p, h, List.mem_cons_of_mem _ (hown p)⟩)

/-- What a subroutine declares is among its tokens. -/
theorem SubroutineDec.mem_tokens {d : SubroutineDec} {v : Declaration} (h : v ∈ d.declarations) :
    .identifier v.name ∈ d.tokens := by
  have hinside : .identifier v.name ∈
      Parameter.listTokens d.parameters ++ localTokens d.locals := by
    obtain h | h := List.mem_append.mp h
    · obtain ⟨p, hp, rfl⟩ := List.mem_map.mp h
      exact List.mem_append_left _ (Parameter.mem_listTokens hp)
    · obtain ⟨dec, hdec, h⟩ := List.mem_flatMap.mp h
      obtain ⟨name, hname, rfl⟩ := List.mem_map.mp h
      exact List.mem_append_right _ (List.mem_flatMap.mpr
        ⟨dec, hdec, List.mem_cons_of_mem _ (VariableDec.mem_tokens hname)⟩)
  simp only [tokens, enclosed, List.mem_cons, List.mem_append] at hinside ⊢
  tauto

theorem ClassDec.mem_tokens {c : ClassDec} {d : SubroutineDec} {v : Declaration}
    (hd : d ∈ c.subroutines) (h : v ∈ d.declarations) : .identifier v.name ∈ c.tokens := by
  have hinside : .identifier v.name ∈ c.subroutines.flatMap SubroutineDec.tokens :=
    List.mem_flatMap.mpr ⟨d, hd, d.mem_tokens h⟩
  simp only [tokens, enclosed, List.mem_cons, List.mem_append]
  tauto

/-- The receiver of a method is no obstacle to a declaration: its name is a keyword. -/
theorem SubroutineDec.distinct_scope_iff {d : SubroutineDec} (className : String)
    (h : ∀ v ∈ d.declarations, Keyword.ofText? v.name = none) :
    Declaration.Distinct (d.scope className) ↔ Declaration.Distinct d.declarations := by
  unfold scope receiver Declaration.Distinct
  cases d.kind with
  | constructor => rfl
  | function => rfl
  | method =>
    rw [List.singleton_append, List.map_cons, List.nodup_cons, and_iff_right]
    intro hthis
    obtain ⟨v, hv, hname⟩ := List.mem_map.mp hthis
    have hthis : v.name = Keyword.this_.text := hname
    have hnone := h v hv
    rw [hthis, Keyword.ofText?_text] at hnone
    cases hnone

/-- In a class that was scanned, the conditions on a subroutine's scope are those on what it
declares itself. -/
theorem ClassDec.admitted_iff {options : Options} {source : String} {c : ClassDec}
    (h : Scans source c.tokens) :
    c.Admitted options ↔ c.Valid ∧ (options.strict = true → c.Distinct) := by
  have hscope : ∀ d ∈ c.subroutines, (Declaration.Distinct (d.scope c.name) ↔
      Declaration.Distinct d.declarations) := fun d hd =>
    d.distinct_scope_iff c.name fun v hv => h.ofText?_eq_none (ClassDec.mem_tokens hd hv)
  constructor
  · rintro ⟨hall, hclass⟩
    exact ⟨fun d hd => (hall d hd).1, fun hstrict =>
      ⟨hclass hstrict, fun d hd => (hscope d hd).mp ((hall d hd).2 hstrict)⟩⟩
  · rintro ⟨hvalid, hdistinct⟩
    exact ⟨fun d hd => ⟨hvalid d hd, fun hstrict =>
      (hscope d hd).mpr ((hdistinct hstrict).2 d hd)⟩, fun hstrict => (hdistinct hstrict).1⟩

/-! ## Runs -/

section Runs

variable {options : Options} {source : String} {c : ClassDec}

/-- A run over the tokens of a class succeeds and writes the lines of that class. -/
theorem run_of_scans (hc : c.Admitted options) (h : Scans source c.tokens) :
    (run options source).problem = none ∧
      (run options source).lines = c.lines options.annotate := by
  obtain ⟨a, b, ha, hreads, hb⟩ := scans_iff.mp h
  have hbound : 2 * c.tokens.length ≤ passBound a := by
    have := hreads.size_add_length_le
    unfold passBound
    omega
  obtain ⟨s, hs, -, hlines⟩ :=
    Pass.goes_compilationUnit c (passBound a) hc hreads hb hbound ⟨a, #[]⟩ rfl
  rw [run_of_pass_ok ha hs]
  exact ⟨rfl, hlines⟩

/-- A run that succeeds was one over the tokens of a class. -/
theorem exists_of_run (h : (run options source).problem = none) :
    ∃ c : ClassDec, c.Admitted options ∧ Scans source c.tokens := by
  cases ha : TokenStream.ofSource source with
  | error problem => simp [run_of_error ha] at h
  | ok a =>
    cases hs : (Pass.compilationUnit options (passBound a) : Pass Unit) ⟨a, #[]⟩ with
    | error problem s => simp [run_of_pass_error ha hs] at h
    | ok u s =>
      obtain ⟨c, hc, hwent, hend⟩ := Pass.compilationUnit_ok hs
      exact ⟨c, hc, scans_iff.mpr ⟨a, s.tokens, ha, hwent.reads, hend⟩⟩

/-- The text of a class that meets the conditions is the listing of its lines. -/
theorem compile_of_scans (unit : String) (hc : c.Admitted options) (h : Scans source c.tokens) :
    compile options unit source = .ok (Line.listing (c.lines options.annotate)) := by
  obtain ⟨hproblem, hlines⟩ := run_of_scans hc h
  refine compile_ok_iff.mpr ⟨hproblem, ?_⟩
  rw [Run.text, hlines]

/-- A text that is compiled is that of a class that meets the conditions. -/
theorem exists_of_compile {unit text : String} (h : compile options unit source = .ok text) :
    ∃ c : ClassDec, c.Admitted options ∧ Scans source c.tokens :=
  exists_of_run (compile_ok_iff.mp h).1

end Runs

/-! ## Texts -/

/-- **One pass is enough.** A text that scans to the tokens of a valid class compiles, and the
result is the listing of the code that recursion on the tree gives. Any number of variables may be
declared: slots, and the numbers of locals and of fields, are counted in 16 bits, in the pass as in
the code of the tree. -/
theorem compile_eq_listing (c : ClassDec) (unit source : String) (hvalid : c.Valid)
    (hscans : Scans source c.tokens) :
    compile {} unit source = .ok (Line.listing (c.code.map .instruction)) := by
  have hc : c.Admitted {} := (ClassDec.admitted_iff hscans).mpr ⟨hvalid, fun h => by cases h⟩
  rw [← ClassDec.lines_false]
  exact compile_of_scans unit hc hscans

/-- A class with a field and a method that goes over an array. -/
def scaler : ClassDec where
  name := "Scaler"
  vars := [⟨.field, ⟨.int, "k", []⟩⟩]
  subroutines := [{
    kind := .method
    result := none
    name := "all"
    parameters := [⟨.named "Array", "a"⟩]
    locals := [⟨.int, "i", []⟩]
    body := [
      .while_ (.mk (.var "i") [(.lt, .call (.mk (some "a") "size" []))]) [
        .letElement "a" (.mk (.var "i") []) (.mk (.element "a" (.mk (.var "i") []))
          [(.mul, .unary .neg (.var "k"))]),
        .let_ "i" (.mk (.var "i") [(.add, .integer 1 "1")])],
      .do_ (.mk (some "Output") "show" [.mk (.string "ok") []]),
      .return_ none] }]

/-- The same class as a text. -/
def scalerText : String :=
  "class Scaler \x7b field int k; method void all(Array a) \x7b var int i; " ++
  "while (i < a.size()) \x7b let a[i] = a[i] * -k; let i = i + 1; \x7d " ++
  "do Output.show(\"ok\"); return; \x7d \x7d"

/-- What the class is compiled to. -/
def scalerCode : String :=
  "function Scaler.all 1\npush argument 0\npop pointer 0\n" ++
  "label Scaler.all$WHILE_EXP0\n" ++
  "push local 0\npush argument 1\ncall Array.size 1\nlt\n" ++
  "not\nif-goto Scaler.all$WHILE_END0\n" ++
  "push argument 1\npush local 0\nadd\n" ++
  "push argument 1\npush local 0\nadd\npop pointer 1\npush that 0\n" ++
  "push this 0\nneg\ncall Math.multiply 2\n" ++
  "pop temp 0\npop pointer 1\npush temp 0\npop that 0\n" ++
  "push local 0\npush constant 1\nadd\npop local 0\n" ++
  "goto Scaler.all$WHILE_EXP0\nlabel Scaler.all$WHILE_END0\n" ++
  "push constant 2\ncall String.new 1\n" ++
  "push constant 111\ncall String.appendChar 2\n" ++
  "push constant 107\ncall String.appendChar 2\n" ++
  "call Output.show 1\npop temp 0\n" ++
  "push constant 0\nreturn\n"

theorem compile_scaler : scaler.Valid ∧ Scans scalerText scaler.tokens ∧
    compile {} "Scaler" scalerText = .ok scalerCode := by
  have hvalid : scaler.Valid := by decide
  have hscans : Scans scalerText scaler.tokens := scans_of_line 1 (by decide +kernel)
  have hcode : Line.listing (scaler.code.map .instruction) = scalerCode := by decide +kernel
  refine ⟨hvalid, hscans, ?_⟩
  rw [compile_eq_listing scaler "Scaler" scalerText hvalid hscans, hcode]

/-- **The language.** A text is compiled exactly if it is scanned to its end without a problem, its
tokens are those of a class, every name used as a value, an array or a target is declared, strings
and calls keep to their limits, and, in strict mode, no scope declares a name twice. -/
theorem compiles_iff (options : Options) (unit source : String) :
    (∃ text, compile options unit source = .ok text) ↔
      ∃ c : ClassDec, Scans source c.tokens ∧ c.Valid ∧ (options.strict = true → c.Distinct) := by
  constructor
  · rintro ⟨text, htext⟩
    obtain ⟨c, hc, hscans⟩ := exists_of_compile htext
    exact ⟨c, hscans, (ClassDec.admitted_iff hscans).mp hc⟩
  · rintro ⟨c, hscans, hc⟩
    exact ⟨_, compile_of_scans unit ((ClassDec.admitted_iff hscans).mpr hc) hscans⟩

end Jack
