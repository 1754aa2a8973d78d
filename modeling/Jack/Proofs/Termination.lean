import Jack.Proofs.Pass.Progress

/-!
# Termination

The functions that compile a class count down a bound. The bound is never used up: a text of `n`
tokens needs a bound of `4 * n`, with a larger one the same is done, and at most `5 * n` functions
are entered on the way. Between two entries of one function, one beneath the other, a token is
consumed; the rounds of a loop are such entries.
-/

namespace Jack

open Pass (CallFrame Tracer)

/-- A compilation with the given bound on a tracer, and the functions that it enters. -/
def tracedRun (options : Options) (bound : Nat) (source : String) : Run × List (List CallFrame) :=
  match TokenStream.ofSource source with
  | .error problem => (⟨#[], some problem⟩, [])
  | .ok tokens =>
    match Pass.compilationUnit options bound ⟨tokens, (⟨#[], [], []⟩ : Tracer)⟩ with
    | .ok _ after => (⟨after.device.journal, none⟩, after.device.entries)
    | .error problem after => (⟨after.device.journal, some problem⟩, after.device.entries)

section Source

variable {options : Options} {source : String} {bound : Nat} {a : TokenStream}

/-- With any bound that is large enough the compilation is the same. -/
theorem compilationUnit_eq_of_bound (options : Options) (ha : TokenStream.ofSource source = .ok a)
    (hbound : 4 * (sourceTokens source).length ≤ bound) :
    (Pass.compilationUnit options bound : Pass Unit) ⟨a, #[]⟩ =
      Pass.compilationUnit options (passBound a) ⟨a, #[]⟩ := by
  have hleft : Pass.State.left ⟨a, #[]⟩ = (sourceTokens source).length :=
    congrArg List.length (TokenStream.supply_ofSource ha)
  obtain hle | hle := Nat.le_total bound (passBound a)
  · exact Pass.compilationUnit_eq_of_le options hle (by omega)
  · exact Pass.compilationUnit_eq_of_passBound options hle

/-- What a compilation leaves on a tracer is its course and its entries. -/
theorem tracedRun_of_tracedResult (ha : TokenStream.ofSource source = .ok a)
    {new : List (List CallFrame)}
    (h : Pass.compilationUnit options bound ⟨a, (⟨#[], [], []⟩ : Tracer)⟩ =
      Pass.tracedResult (Pass.compilationUnit options (passBound a) ⟨a, #[]⟩) [] new) :
    tracedRun options bound source = (run options source, new) := by
  unfold tracedRun run drive
  simp only [ha, h]
  cases (Pass.compilationUnit options (passBound a) : Pass Unit) ⟨a, #[]⟩ <;> rfl

/-- A compilation on a tracer runs its course, and enters functions in an orderly way. -/
theorem exists_entries (options : Options) (ha : TokenStream.ofSource source = .ok a)
    (hbound : 4 * (sourceTokens source).length ≤ bound) :
    ∃ new, tracedRun options bound source = (run options source, new) ∧
      (∀ stack ∈ new, Pass.Orderly 0 0 stack) ∧
      new.length ≤ 5 * (sourceTokens source).length := by
  have hleft : Pass.State.left ⟨a, #[]⟩ = (sourceTokens source).length :=
    congrArg List.length (TokenStream.supply_ofSource ha)
  have hbegun : Pass.Begun 0 bound ⟨a, #[]⟩ := ⟨Nat.zero_le _, by omega⟩
  obtain ⟨new, hnew⟩ := Pass.paced_compilationUnit options le_rfl hbegun
  refine ⟨new, tracedRun_of_tracedResult ha ?_, hnew.orderly, ?_⟩
  · have htraced := hnew.traced [] []
    rw [compilationUnit_eq_of_bound options ha hbound] at htraced
    simpa [Pass.State.traced] using htraced
  · have hle := hnew.length_le
    rwa [Nat.zero_add, hleft] at hle

end Source

/-- **Termination.** A bound of four for each token of the text is never used up. The compilation
with it is the compilation, which consumes some first tokens of the text and never the end of the
input. Wherever one function has been entered beneath another entry of the same function, which
includes the rounds of loops over tokens, a token has been consumed in between. The number of
entries is at most five for each token. The loops over the characters of a string and over the lines
of a listing are not among the entries: they consume no token, and go through a list that they have
been given. -/
theorem compilation_terminates (options : Options) (source : String) (bound : Nat)
    (hbound : 4 * (sourceTokens source).length ≤ bound) :
    (tracedRun options bound source).1 = run options source ∧
    (run options source).tokens <+: sourceTokens source ∧
    (∀ t ∈ (run options source).tokens, t.kind ≠ .eof) ∧
    (∀ stack ∈ (tracedRun options bound source).2,
      (∀ frame ∈ stack, 0 < frame.bound) ∧
      stack.Pairwise fun inner outer => inner.site = outer.site → outer.used < inner.used) ∧
    (tracedRun options bound source).2.length ≤ 5 * (sourceTokens source).length := by
  have htokens := isPrefix_sourceTokens options source
  have heof : ∀ t ∈ (run options source).tokens, t.kind ≠ .eof := by
    intro t ht
    have heof : t.isEof = false := isEof_of_mem_leading (htokens.subset ht)
    rwa [Token.isEof, ← Bool.not_eq_true, TokenKind.isEof_iff] at heof
  cases ha : TokenStream.ofSource source with
  | error e =>
    have htraced : tracedRun options bound source = (⟨#[], some e⟩, []) := by simp [tracedRun, ha]
    rw [htraced]
    exact ⟨(run_of_error ha).symm, htokens, heof, by simp, Nat.zero_le _⟩
  | ok a =>
    obtain ⟨new, htraced, horderly, hlength⟩ := exists_entries options ha hbound
    rw [htraced]
    exact ⟨rfl, htokens, heof, fun stack hstack => ⟨(horderly stack hstack).bound,
      (horderly stack hstack).beneath.imp fun h => h.used_lt⟩, hlength⟩

/-- Nested expressions: 17 entries for 19 tokens. -/
theorem compilation_terminates_nested :
    4 * (sourceTokens
      "class A \x7b function int f() \x7b return (-(1)); \x7d \x7d").length ≤ 76 ∧
    (tracedRun ⟨false, false⟩ 76
      "class A \x7b function int f() \x7b return (-(1)); \x7d \x7d").2.length = 17 ∧
    ∀ stack ∈ (tracedRun ⟨false, false⟩ 76
        "class A \x7b function int f() \x7b return (-(1)); \x7d \x7d").2,
      stack.Pairwise fun inner outer => inner.site = outer.site → outer.used < inner.used := by
  have hbound : 4 * (sourceTokens
      "class A \x7b function int f() \x7b return (-(1)); \x7d \x7d").length ≤ 76 := by
    decide +kernel
  obtain ⟨-, -, -, hstacks, -⟩ := compilation_terminates ⟨false, false⟩ _ 76 hbound
  exact ⟨hbound, by decide +kernel, fun stack hstack => (hstacks stack hstack).2⟩

end Jack
