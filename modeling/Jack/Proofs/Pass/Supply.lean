import Jack.Proofs.Pass.Replay
import Jack.Proofs.Token.Calls

/-!
# The supply of tokens

A text supplies the tokens that scanning finds before the end of the input or the first problem. A
compilation consumes some of them, one after the other from the first on. It consumes all of them
if it succeeds, and then scanning has met no problem. The end of the unit is announced then, and
only then.
-/

namespace Jack

/-- The number of lines of a text. -/
def lineCount (source : String) : Nat := 1 + source.toList.count '\n'

/-- The tokens before the end of the input and before any problem. -/
def leading : List Scanned → List Token
  | .ok t :: rest => if t.isEof then [] else t :: leading rest
  | _ => []

/-- The tokens of a text up to the end of the input or to the first problem. -/
def sourceTokens (source : String) : List Token := leading (scan source)

theorem isEof_of_mem_leading {answers : List Scanned} {t : Token} (h : t ∈ leading answers) :
    t.isEof = false := by
  induction answers with
  | nil => cases h
  | cons answer rest ih =>
    cases answer with
    | error e => cases h
    | ok t' =>
      rw [leading] at h
      split at h
      · cases h
      · rename_i hne
        obtain rfl | h := List.mem_cons.mp h
        · exact Bool.eq_false_iff.mpr hne
        · exact ih h

theorem leading_map_append {ts : List Token} (h : ∀ t ∈ ts, t.isEof = false)
    (rest : List Scanned) : leading (ts.map .ok ++ rest) = ts ++ leading rest := by
  induction ts with
  | nil => rfl
  | cons t ts ih =>
    rw [List.forall_mem_cons] at h
    simp [leading, h.1, ih h.2]

theorem leading_takeWhile (answers : List Scanned) :
    leading (answers.takeWhile fun answer => !Cursor.isEnd answer) = leading answers := by
  induction answers with
  | nil => rfl
  | cons answer rest ih =>
    cases answer with
    | error e => rfl
    | ok t =>
      have hend : Cursor.isEnd (.ok t) = t.isEof := rfl
      cases ht : t.isEof with
      | true => simp [hend, leading, ht]
      | false => simp [hend, leading, ht, ih]

theorem length_leading_le (answers : List Scanned) : (leading answers).length ≤ answers.length := by
  induction answers with
  | nil => exact le_rfl
  | cons answer rest ih =>
    cases answer with
    | error e => exact Nat.zero_le _
    | ok t =>
      rw [leading]
      split
      · exact Nat.zero_le _
      · exact Nat.succ_le_succ ih

namespace TokenStream

variable {a b : TokenStream}

theorem ahead_eq_takeWhile (a : TokenStream) :
    a.ahead = a.answers.takeWhile fun answer => !Cursor.isEnd answer := by
  cases ha : a.current.isEof <;> simp [ahead, answers, Cursor.isEnd, ha]

/-- The tokens that a stream supplies. -/
def supply (a : TokenStream) : List Token := leading a.answers

theorem supply_eq_leading_ahead (a : TokenStream) : a.supply = leading a.ahead := by
  rw [supply, ahead_eq_takeWhile, leading_takeWhile]

/-- The tokens taken come first in the supply. -/
theorem supply_of_ahead {ts : List Token} {rest : List Scanned}
    (h : a.ahead = ts.map .ok ++ rest) : a.supply = ts ++ leading rest := by
  rw [supply_eq_leading_ahead, h]
  refine leading_map_append (fun t ht => ?_) rest
  have hmem : .ok t ∈ a.ahead := h ▸ List.mem_append_left _ (List.mem_map_of_mem ht)
  exact (mem_ahead hmem).2

theorem length_supply_le_size (a : TokenStream) : a.supply.length ≤ a.size := by
  cases ha : a.current.isEof with
  | true => simp [supply, answers, leading, ha]
  | false =>
    have := length_leading_le a.pending
    simpa [supply, answers, leading, size, ha]

/-- Reading takes from the supply. -/
theorem length_supply_of_reads {ks : List TokenKind} (h : a.Reads ks b) :
    a.supply.length = ks.length + b.supply.length := by
  induction ks generalizing a with
  | nil =>
    rw [reads_nil.mp h]
    simp
  | cons k ks ih =>
    obtain ⟨hk, hne, hadvance, hrest⟩ := reads_cons.mp h
    have hahead : a.ahead = [a.current].map .ok ++ a.advance.2.ahead :=
      ahead_of_advance (hk ▸ hne) (Prod.ext hadvance rfl)
    rw [supply_of_ahead hahead, ← supply_eq_leading_ahead, List.length_append, ih hrest,
      List.length_singleton, List.length_cons]
    omega

theorem supply_ofSource {source : String} (h : ofSource source = .ok a) :
    a.supply = sourceTokens source := by
  rw [supply, answers_ofSource h, sourceTokens]

theorem ahead_of_eof (h : a.current.kind = .eof) : a.ahead = [] := by
  simp [ahead, Token.isEof, h, TokenKind.isEof]

/-- The scan of a text is what is ahead at its start, and the end of the input. -/
theorem scan_eq_ahead {source : String} (h : ofSource source = .ok a) :
    scan source = a.ahead ++ [.ok ⟨.eof, lineCount source⟩] := by
  obtain ⟨before, hscan, hbefore⟩ := (Cursor.start source).exists_answers_before
  have hahead : a.ahead = before := by
    rw [ahead_eq_takeWhile, answers_ofSource h, scan, hscan,
      List.takeWhile_append_of_pos (by simpa using hbefore),
      List.takeWhile_cons_of_neg (by simp [Cursor.isEnd, Token.isEof, TokenKind.isEof]),
      List.append_nil]
  rw [hahead]
  exact hscan

/-- What is ahead and the end of the input start with the current token. -/
theorem EndsOn.ahead_append {last : Nat} (h : a.EndsOn last) :
    ∃ rest, a.ahead ++ [.ok ⟨.eof, last⟩] = .ok a.current :: rest := by
  by_cases heof : a.current.kind = .eof
  · rw [ahead_of_eof heof, h.current_of_eof heof]
    exact ⟨[], rfl⟩
  · rw [ahead_of_ne_eof heof]
    exact ⟨_, rfl⟩

end TokenStream

namespace Pass

/-- A pass takes the first tokens of the supply. -/
theorem Covers.isPrefix_supply {α : Type} {strict : Bool} {a b : TokenStream}
    {r : Except Problem α} {ts : List Token} (h : Covers strict a r b ts) : ts <+: a.supply := by
  cases h with
  | walked hahead => exact ⟨_, (TokenStream.supply_of_ahead hahead).symm⟩
  | stuck hahead => exact ⟨_, (TokenStream.supply_of_ahead hahead).symm⟩

end Pass

section Run

variable {options : Options} {source : String}

/-- The course of the pass over a text whose first token can be scanned. -/
theorem exists_course_run (options : Options) {a : TokenStream}
    (ha : TokenStream.ofSource source = .ok a) :
    ∃ r b es, Pass.Course (Pass.unitContract (Array Event) Problem options options id True) none
        (Pass.compilationUnit options (passBound a)) (Pass.compilationUnit options (passBound a))
        (fun _ _ w => w.ahead.kind = .eof) a r b es ∧ Pass.Finishes r es ∧
      run options source = ⟨es.toArray, Pass.problem? r⟩ := by
  obtain ⟨r, b, es, hcourse, hfinishes⟩ := Pass.exists_unitCourse (δ := Array Event) options options
    id (passBound a) (TokenStream.genuine_ofSource ha)
  exact ⟨r, b, es, hcourse, hfinishes, run_of_plays ha hcourse.plays⟩

/-- The tokens consumed are the first ones of the text. -/
theorem isPrefix_sourceTokens (options : Options) (source : String) :
    (run options source).tokens <+: sourceTokens source := by
  cases ha : TokenStream.ofSource source with
  | error e => simp [run_of_error ha, Run.tokens]
  | ok a =>
    obtain ⟨r, b, es, hcourse, -, hrun⟩ := exists_course_run options ha
    rw [hrun, ← TokenStream.supply_ofSource ha]
    exact hcourse.account.covers.isPrefix_supply

/-- A compilation that succeeds consumes all tokens, and scanning has met no problem. -/
theorem scan_of_run (h : (run options source).problem = none) :
    ∃ line, scan source = (run options source).tokens.map .ok ++ [.ok ⟨.eof, line⟩] := by
  cases ha : TokenStream.ofSource source with
  | error e => simp [run_of_error ha] at h
  | ok a =>
    obtain ⟨r, b, es, hcourse, -, hrun⟩ := exists_course_run options ha
    rw [hrun] at h ⊢
    cases r with
    | error e => cases h
    | ok u =>
      obtain ⟨w, -, -, hahead, heof⟩ := hcourse.ends u rfl
      have htokens : a.ahead = (Pass.tokensOf es).map .ok := by
        rw [hcourse.account.covers.ahead_eq, TokenStream.ahead_of_eof (hahead ▸ heof),
          List.append_nil]
      exact ⟨lineCount source, by rw [TokenStream.scan_eq_ahead ha, htokens]; rfl⟩

/-- A compilation that succeeds announces the end of the unit once, after everything else. -/
theorem exists_finish_of_none (h : (run options source).problem = none) :
    ∃ before, (run options source).events.toList = before ++ [.finish] ∧
      Event.finish ∉ before := by
  cases ha : TokenStream.ofSource source with
  | error e => simp [run_of_error ha] at h
  | ok a =>
    obtain ⟨r, b, es, -, hfinishes, hrun⟩ := exists_course_run options ha
    rw [hrun] at h ⊢
    cases r with
    | error e => cases h
    | ok u => exact hfinishes

/-- A compilation that stops has not announced the end of the unit. -/
theorem finish_notMem_of_problem {e : Problem} (h : (run options source).problem = some e) :
    Event.finish ∉ (run options source).events.toList := by
  cases ha : TokenStream.ofSource source with
  | error e => simp [run_of_error ha]
  | ok a =>
    obtain ⟨r, b, es, -, hfinishes, hrun⟩ := exists_course_run options ha
    rw [hrun] at h ⊢
    cases r with
    | error e => exact hfinishes
    | ok u => cases h

end Run

end Jack
