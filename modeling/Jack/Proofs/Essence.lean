import Jack.Proofs.Earliest

/-!
# What the code of a text depends on

White space, comments, line breaks, leading zeros and the name of the unit have no part in what a
text is compiled to, nor in what is complained about.

1. A stream that is read to the end of the input has one way to go (`Reads.rest_of_eof`), and no
   problem is met on it (`Reads.not_meets`).
2. So a pass that stops on such a stream stops in the same way on every stream with tokens like
   these: the same lines are written, and the faults differ at most in the digits of a number
   (`summary_of_like`).
3. The message of a fault shows the value of a number and not its digits, which leaves the unit and
   the line as the only differences between the errors (`layout_is_immaterial`).
-/

namespace Jack

/-! ## Messages -/

theorem TokenKind.mention_essence (k : TokenKind) : k.essence.mention = k.mention := by
  cases k <;> rfl

theorem Fault.category_essence (f : Fault) : f.essence.category = f.category := by
  cases f <;> rfl

theorem Fault.message_essence (f : Fault) : f.essence.message = f.message := by
  cases f with
  | expected what found =>
    exact congrArg (fun text => "expected " ++ what ++ ", encountered " ++ text)
      found.mention_essence
  | _ => exact congrArg message rfl

/-! ## Streams without problems -/

namespace TokenStream

variable {a b c : TokenStream} {ks ls : List TokenKind}

/-- Whatever else a stream reads, it can be continued to the end of the input. -/
theorem Reads.rest_of_eof (h : a.Reads ks c) (hc : c.current.kind = .eof) (h' : a.Reads ls b) :
    ∃ rest, ks = ls ++ rest ∧ b.Reads rest c := by
  induction ls generalizing a ks with
  | nil => exact ⟨ks, rfl, h' ▸ h⟩
  | cons l ls ih =>
    obtain ⟨hl, hne, -, hrest⟩ := h'
    cases ks with
    | nil =>
      rw [reads_nil] at h
      exact absurd (hl.symm.trans (h ▸ hc)) hne
    | cons k ks =>
      obtain ⟨hk, -, -, hrest'⟩ := h
      obtain ⟨rest, rfl, hb⟩ := ih hrest' hrest
      exact ⟨rest, by rw [← hk, hl, List.cons_append], hb⟩

theorem Reads.not_meets {e : Problem} (h : a.Reads ks c) (hc : c.current.kind = .eof) :
    ¬ a.Meets e := by
  rintro ⟨ls, b, hreads, hadvance⟩
  obtain ⟨rest, -, hb⟩ := h.rest_of_eof hc hreads
  cases rest with
  | nil =>
    rw [reads_nil] at hb
    rw [hb, advance_of_isEof (TokenKind.isEof_iff.mpr hc)] at hadvance
    cases hadvance
  | cons k rest =>
    rw [hb.2.2.1] at hadvance
    cases hadvance

/-- Two streams with tokens that are alike up to the end are alike wherever the first one stands. -/
theorem Reads.similar {t fin : TokenStream} {ms : List TokenKind} (h : a.Reads ks c)
    (hc : c.current.kind = .eof) (h' : t.Reads ms fin) (hfin : fin.current.kind = .eof)
    (hlike : ms.map TokenKind.essence = ks.map TokenKind.essence) (hb : a.Reads ls b) :
    ∃ ms' b', Similar ls b t ms' b' := by
  obtain ⟨rest, rfl, hrest⟩ := h.rest_of_eof hc hb
  have hend : Similar (ls ++ rest) c t ms fin := ⟨h', hlike, by rw [hc, hfin]⟩
  obtain ⟨ms₁, ms₂, b₁, -, hsim, -⟩ := hend.split hrest
  exact ⟨ms₁, b₁, hsim⟩

end TokenStream

/-! ## Runs -/

namespace Pass

/-- What a pass has written, and the essence of the fault that stopped it. -/
def summary {α : Type} : EStateM.Result Problem State α → List Line × Option Fault
  | .ok _ s => (s.lines, none)
  | .error e s => (s.lines, some e.fault.essence)

variable {options : Options} {a t b fin : TokenStream} {ks ls : List TokenKind} {N : Nat}

/-- On streams with tokens that are alike, the pass over a unit does the same. -/
theorem summary_of_like (ha : a.Reads ks b) (hb : b.current.kind = .eof) (ht : t.Reads ls fin)
    (hfin : fin.current.kind = .eof)
    (hlike : ls.map TokenKind.essence = ks.map TokenKind.essence) :
    summary (compilationUnit options N ⟨t, #[]⟩) =
      summary (compilationUnit options N ⟨a, #[]⟩) := by
  cases hs : (compilationUnit options N : Pass Unit) ⟨a, #[]⟩ with
  | ok u s =>
    obtain ⟨ks', out, htook, hechoes⟩ := echoes_of_ok hs
    obtain ⟨ls', b', hsim⟩ := ha.similar hb ht hfin hlike htook.reads
    obtain ⟨t', ht', htook', -⟩ := @hechoes ⟨t, #[]⟩ _ _ hsim
    simp only [ht', summary, htook.lines, htook'.lines]
    rfl
  | error e s =>
    obtain hmeets | ⟨ks', out, htook, -, hechoes⟩ := echoes_of_error hs
    · exact absurd hmeets (ha.not_meets hb)
    obtain ⟨ls', b', hsim⟩ := ha.similar hb ht hfin hlike htook.reads
    obtain ⟨e', t', ht', hfault, htook', -⟩ := @hechoes ⟨t, #[]⟩ _ _ hsim
    simp only [ht', summary, htook.lines, htook'.lines, hfault]
    rfl

end Pass

/-- What a run has written, and the essence of the fault that stopped it. -/
def Run.summary (r : Run) : List Line × Option Fault :=
  (r.lines, r.problem.map fun e => e.fault.essence)

/-- The summary of a run is that of its pass, with every bound large enough. -/
theorem summary_run {options : Options} {source : String} {a : TokenStream} {N : Nat}
    (ha : TokenStream.ofSource source = .ok a) (hN : passBound a ≤ N) :
    (run options source).summary = Pass.summary (Pass.compilationUnit options N ⟨a, #[]⟩) := by
  rw [Pass.compilationUnit_eq_of_passBound options hN]
  cases hs : (Pass.compilationUnit options (passBound a) : Pass Unit) ⟨a, #[]⟩ with
  | ok u s =>
    rw [run_of_pass_ok ha hs]
    rfl
  | error e s =>
    rw [run_of_pass_error ha hs]
    rfl

/-- Runs over tokens that are alike write the same lines and stop at the same fault. -/
theorem summary_run_of_like (options : Options) {source source' : String}
    {ks ls : List TokenKind} (h : Scans source ks) (h' : Scans source' ls)
    (hlike : ls.map TokenKind.essence = ks.map TokenKind.essence) :
    (run options source').summary = (run options source).summary := by
  obtain ⟨a, b, ha, hreads, hb⟩ := scans_iff.mp h
  obtain ⟨a', b', ha', hreads', hb'⟩ := scans_iff.mp h'
  -- the bound has room for either stream
  rw [summary_run ha (le_max_left _ (passBound a')), summary_run ha' (le_max_right (passBound a) _)]
  exact Pass.summary_of_like hreads hb hreads' hb' hlike

/-- **Layout.** Two texts are scanned to tokens that differ at most in the digits of numbers. Then
both are compiled to the same code, or both fail with the same message in the same category; only
the unit and the line of the error may differ. -/
theorem layout_is_immaterial (options : Options) (unit unit' source source' : String)
    (ks ls : List TokenKind) (h : Scans source ks) (h' : Scans source' ls)
    (hlike : ls.map TokenKind.essence = ks.map TokenKind.essence) :
    (∃ text, compile options unit source = .ok text ∧
        compile options unit' source' = .ok text) ∨
      ∃ line line' fault fault',
        compile options unit source = .error (.source ⟨unit, line, fault⟩) ∧
        compile options unit' source' = .error (.source ⟨unit', line', fault'⟩) ∧
        fault'.category = fault.category ∧ fault'.message = fault.message := by
  obtain ⟨hlines, hfaults⟩ := Prod.mk.inj (summary_run_of_like options h h' hlike)
  cases hproblem : (run options source).problem with
  | none =>
    rw [hproblem, Option.map_none, Option.map_eq_none_iff] at hfaults
    refine .inl ⟨_, compile_ok_iff.mpr ⟨hproblem, rfl⟩, compile_ok_iff.mpr ⟨hfaults, ?_⟩⟩
    rw [Run.text, Run.text, hlines]
  | some e =>
    rw [hproblem, Option.map_some, Option.map_eq_some_iff] at hfaults
    obtain ⟨e', hproblem', hfault⟩ := hfaults
    refine .inr ⟨e.line, e'.line, e.fault, e'.fault, compile_error_iff.mpr ⟨e, hproblem, rfl⟩,
      compile_error_iff.mpr ⟨e', hproblem', rfl⟩, ?_, ?_⟩
    · rw [← Fault.category_essence, hfault, Fault.category_essence]
    · rw [← Fault.message_essence, hfault, Fault.message_essence]

/-- A text in which a number stands where a semicolon should. -/
def strayText : String := "class A \x7b function int f() \x7b return 1 007; \x7d \x7d"

/-- The same over several lines, with a comment and fewer zeros. -/
def strayTextApart : String :=
  "class A \x7b // one\n function int f() \x7b\n return 01\n 7 ; \x7d\n\x7d"

def strayTokens (one seven : String) : List TokenKind :=
  [.keyword .class_, .identifier "A", .symbol .leftBrace, .keyword .function, .keyword .int,
    .identifier "f", .symbol .leftParen, .symbol .rightParen, .symbol .leftBrace,
    .keyword .return_, .integer 1 one, .integer 7 seven, .symbol .semicolon, .symbol .rightBrace,
    .symbol .rightBrace]

theorem stray_layout_is_immaterial :
    Scans strayText (strayTokens "1" "007") ∧ Scans strayTextApart (strayTokens "01" "7") ∧
      compile {} "A" strayText =
        .error (.source ⟨"A", 1, .expected "';'" (.integer 7 "007")⟩) ∧
      ∃ line fault, compile {} "B" strayTextApart = .error (.source ⟨"B", line, fault⟩) ∧
        fault.category = .syntactic ∧
        fault.message = "expected ';', encountered integer constant 7" := by
  have hscans : Scans strayText (strayTokens "1" "007") := scans_of_line 1 (by decide +kernel)
  have hscans' : Scans strayTextApart (strayTokens "01" "7") :=
    ⟨[⟨.keyword .class_, 1⟩, ⟨.identifier "A", 1⟩, ⟨.symbol .leftBrace, 1⟩,
      ⟨.keyword .function, 2⟩, ⟨.keyword .int, 2⟩, ⟨.identifier "f", 2⟩, ⟨.symbol .leftParen, 2⟩,
      ⟨.symbol .rightParen, 2⟩, ⟨.symbol .leftBrace, 2⟩, ⟨.keyword .return_, 3⟩,
      ⟨.integer 1 "01", 3⟩, ⟨.integer 7 "7", 4⟩, ⟨.symbol .semicolon, 4⟩,
      ⟨.symbol .rightBrace, 4⟩, ⟨.symbol .rightBrace, 5⟩], 5, by decide +kernel, rfl⟩
  have hcompile : compile {} "A" strayText =
      .error (.source ⟨"A", 1, .expected "';'" (.integer 7 "007")⟩) := by decide +kernel
  refine ⟨hscans, hscans', hcompile, ?_⟩
  obtain ⟨text, htext, -⟩ | ⟨line, line', fault, fault', hfault, hfault', hcategory, hmessage⟩ :=
    layout_is_immaterial {} "A" "B" strayText strayTextApart _ _ hscans hscans' rfl
  · rw [hcompile] at htext
    cases htext
  · rw [hcompile] at hfault
    cases hfault
    exact ⟨line', fault', hfault', hcategory, hmessage⟩

end Jack
