import Jack.Proofs.Pass.Supply

/-!
# What a compilation blames

A compilation that stops gives a reason (`cause_of_problem`): a problem of scanning, or a complaint
in view of the token taken last and of the one that scanning answers after it. So the line of every
problem is one of the text, and no compilation ever complains that there is no subroutine to hold a
statement or a declaration.
-/

namespace Jack

open Pass

/-- A complaint is on the line of the token ahead, or on that of the token taken last. -/
theorem Pass.Complaint.line_eq {strict : Bool} {last : Option Token} {ahead : Token} {e : Problem}
    (h : Complaint strict last ahead e) :
    e.line = ahead.line ∨ ∃ t, last = some t ∧ e.line = t.line := by
  cases h with
  | unexpected | tooManyArguments | stringTooLong => exact .inl rfl
  | unresolved hlast | redeclared hlast => exact .inr ⟨_, hlast, rfl⟩

theorem Pass.Complaint.not_stray {strict : Bool} {last : Option Token} {ahead : Token} {e : Problem}
    (h : Complaint strict last ahead e) :
    e.fault ≠ .strayStatement ∧ e.fault ≠ .strayDeclaration := by
  cases h <;> simp

/-- Only the name taken last can be at fault. -/
theorem Pass.Complaint.last_of_name {strict : Bool} {last : Option Token} {ahead : Token}
    {e : Problem} (h : Complaint strict last ahead e) {name : String}
    (hfault : e.fault = .unresolved name ∨ e.fault = .redeclared name) :
    last = some ⟨.identifier name, e.line⟩ := by
  cases h with
  | unexpected | stringTooLong | tooManyArguments => simp at hfault
  | unresolved hlast | redeclared hlast =>
    obtain hfault | hfault := hfault <;> cases hfault
    exact hlast

/-- Only the string taken last can be too long. -/
theorem Pass.Complaint.last_of_string {strict : Bool} {last : Option Token} {ahead : Token}
    {e : Problem} (h : Complaint strict last ahead e) (hfault : e.fault = .stringTooLong) :
    ∃ characters line, last = some ⟨.string characters, line⟩ ∧
      maxConstant < characters.toList.length ∧ e.line = ahead.line := by
  cases h with
  | unexpected | tooManyArguments | unresolved | redeclared => simp at hfault
  | stringTooLong hlast hlong => exact ⟨_, _, hlast, hlong, rfl⟩

theorem TokenStream.endsOn_ofSource {source : String} {a : TokenStream}
    (h : ofSource source = .ok a) : a.EndsOn (lineCount source) := by
  rw [EndsOn, answers_ofSource h]
  exact (Cursor.start source).exists_answers_before

theorem TokenStream.mem_scan_of_error {source : String} {e : Problem}
    (h : ofSource source = .error e) : .error e ∈ scan source := by
  unfold ofSource at h
  cases hscan : scan source with
  | nil => simp [hscan, ofAnswers] at h
  | cons answer rest =>
    rw [hscan] at h
    cases answer with
    | ok token => cases h
    | error problem =>
      cases h
      exact List.mem_cons_self ..

section Run

variable {options : Options} {source : String} {e : Problem}

/-- **Blame.** A compilation that stops has met a problem of scanning, or it complains in view of
the tokens consumed and of the one that scanning answers after them. -/
theorem cause_of_problem (h : (run options source).problem = some e) :
    .error e ∈ scan source ∨ ∃ ahead rest,
      Complaint options.strict (run options source).tokens.getLast? ahead e ∧
      scan source = (run options source).tokens.map .ok ++ .ok ahead :: rest := by
  cases ha : TokenStream.ofSource source with
  | error e' =>
    obtain rfl : e' = e := by simpa [run_of_error ha] using h
    exact .inl (TokenStream.mem_scan_of_error ha)
  | ok a =>
    obtain ⟨r, b, es, hcourse, -, hrun⟩ := exists_course_run options ha
    rw [hrun] at h ⊢
    cases r with
    | ok u => cases h
    | error e' =>
      cases h
      have hscan := TokenStream.scan_eq_ahead ha
      have hscanned : .error e ∈ a.ahead → .error e ∈ scan source := fun hmem => by
        rw [hscan]
        exact List.mem_append_left _ hmem
      obtain hblame | hmem := hcourse.account.blame e rfl
      · cases hcourse.account.covers with
        | stuck hahead => exact .inl (hscanned (by simp [hahead]))
        | walked hahead =>
          have hends := hcourse.account.endsOn _ (TokenStream.endsOn_ofSource ha)
          obtain ⟨rest, hrest⟩ := hends.ahead_append
          refine .inr ⟨b.current, rest, ?_, ?_⟩
          · rw [lastTaken, Option.or_none] at hblame
            exact hblame
          · rw [hscan, hahead, List.append_assoc, hrest]
            rfl
      · exact .inl (hscanned hmem)

/-- A compilation that is not stopped by scanning complains. -/
theorem complaint_of_problem (h : (run options source).problem = some e)
    (he : e.fault.category ≠ .lexical) : ∃ ahead rest,
      Complaint options.strict (run options source).tokens.getLast? ahead e ∧
      scan source = (run options source).tokens.map .ok ++ .ok ahead :: rest :=
  (cause_of_problem h).resolve_left fun hmem => he (Cursor.lexical_of_mem_answers hmem)

/-- The line of a problem is one of the text. -/
theorem line_of_problem (h : (run options source).problem = some e) :
    1 ≤ e.line ∧ e.line ≤ lineCount source := by
  obtain hmem | ⟨ahead, rest, hcomplaint, hscan⟩ := cause_of_problem h
  · exact line_of_mem_scan hmem
  · obtain hline | ⟨t, ht, hline⟩ := hcomplaint.line_eq
    · have hmem : .ok ahead ∈ scan source := by simp [hscan]
      rw [hline]
      exact line_of_mem_scan hmem
    · have hmem : .ok t ∈ scan source := by
        rw [hscan]
        exact List.mem_append_left _ (List.mem_map_of_mem (List.mem_of_getLast? ht))
      rw [hline]
      exact line_of_mem_scan hmem

/-- **Scopes.** A statement or a declaration is never met outside of a subroutine. -/
theorem not_stray_of_problem (h : (run options source).problem = some e) :
    e.fault ≠ .strayStatement ∧ e.fault ≠ .strayDeclaration := by
  by_cases hlexical : e.fault.category = .lexical
  · constructor <;> (intro hfault; simp [hfault, Fault.category] at hlexical)
  · obtain ⟨ahead, rest, hcomplaint, -⟩ := complaint_of_problem h hlexical
    exact hcomplaint.not_stray

end Run

end Jack
