import Jack.Proofs.Language
import Jack.Proofs.Pass.Blame

/-!
# The token that is to blame

Three faults are found in a token after it has been taken: a name that means nothing, a name that is
declared again, and a string that is too long. In each case nothing has been taken since. The two
faults of names are reported on the line where the name starts, whatever follows it. The line was
noted before the name was taken. That of a string was not: the fault is reported on the line of the
token after the string, which is too high by the line feeds between the two
(`diagnostic_follows_last_token`, `longString_is_blamed_late`).

1. `Located` ties a token to its place in the text. The next token is found after a gap
   (`Located.next`).
2. A compilation that stops on its own stands at the token after those it has taken
   (`cause_of_problem`), so its last token has a place in the text (`exists_last`).
-/

namespace Jack

open Text

/-! ## Places of tokens -/

/-- The token is the answer with the given number, counted from 0. In the text it stands between the
two parts, of which the second has yet to be read, and it bears the line on which it starts. -/
structure Located (source : String) (n : Nat) (t : Token) (before after : List Char) : Prop where
  answer : (scan source)[n]? = some (.ok t)
  split : source.toList = before ++ (t.kind.spelling ++ after)
  rest : ((Cursor.start source).after (n + 1)).rest = after
  line : t.line = 1 + before.count '\n'

section Located

variable {source : String} {n : Nat} {t u : Token} {before after : List Char}

/-- A token comes after a gap, wherever the text was left before. -/
theorem Cursor.Reached.located {read : List Char}
    (h : Reached source read ((start source).after n)) (ht : (scan source)[n]? = some (.ok t)) :
    ∃ gap after, ((start source).after n).rest = gap ++ (t.kind.spelling ++ after) ∧
      GapBefore (t.kind.spelling ++ after) gap ∧ Located source n t (read ++ gap) after := by
  obtain ⟨gap, item, hrest, hgap, hitem, hline, -⟩ := h.next
  have hanswer : ((start source).after n).next.1 = .ok t := answerAt_of_getElem? ht
  rw [hanswer] at hitem hline
  obtain rfl := hitem.eq_spelling
  refine ⟨gap, _, hrest, hgap, ht, ?_, rfl, hline⟩
  rw [h.split, hrest, List.append_assoc]

theorem exists_located (h : (scan source)[n]? = some (.ok t)) :
    ∃ before after, Located source n t before after := by
  obtain ⟨read, hread⟩ := Cursor.exists_reached source n
  obtain ⟨gap, after, -, -, hlocated⟩ := hread.located h
  exact ⟨_, after, hlocated⟩

/-- After a token the cursor has read up to its end. -/
theorem Located.reached (h : Located source n t before after) :
    Cursor.Reached source (before ++ t.kind.spelling) ((Cursor.start source).after (n + 1)) := by
  obtain ⟨read, hread⟩ := Cursor.exists_reached source (n + 1)
  have hsplit : read ++ after = (before ++ t.kind.spelling) ++ after := by
    rw [List.append_assoc, ← h.split, ← h.rest, ← hread.split]
  rwa [← List.append_cancel_right hsplit]

/-- The token after a token starts as many lines below as there are line feeds between them. -/
theorem Located.next (h : Located source n t before after) (ht : t.isEof = false)
    (hu : (scan source)[n + 1]? = some (.ok u)) :
    ∃ gap rest, after = gap ++ (u.kind.spelling ++ rest) ∧
      GapBefore (u.kind.spelling ++ rest) gap ∧
      Located source (n + 1) u (before ++ t.kind.spelling ++ gap) rest ∧
      u.line = t.line + gap.count '\n' := by
  obtain ⟨gap, rest, hafter, hgap, hlocated⟩ := h.reached.located hu
  refine ⟨gap, rest, h.rest ▸ hafter, hgap, hlocated, ?_⟩
  have hmem : .ok t ∈ scan source := List.mem_of_getElem? h.answer
  have hspelling := (Cursor.wellFormed_of_mem_answers hmem ht).count_spelling
  rw [hlocated.line, h.line, List.count_append, List.count_append, hspelling]
  omega

end Located

/-! ## Where a pass stops -/

section Run

variable {options : Options} {source : String}

/-- The token taken last has a place in the text, and the token after it is the one ahead. -/
theorem exists_last {t ahead : Token} {rest : List Scanned}
    (hlast : (run options source).tokens.getLast? = some t)
    (hscan : scan source = (run options source).tokens.map .ok ++ .ok ahead :: rest) :
    ∃ n before after, (run options source).tokens.length = n + 1 ∧
      (run options source).tokens[n]? = some t ∧ Located source n t before after ∧
      (scan source)[n + 1]? = some (.ok ahead) := by
  obtain ⟨ts, hts⟩ := List.getLast?_eq_some_iff.mp hlast
  rw [hts, List.map_append, List.append_assoc] at hscan
  have hanswer : (scan source)[ts.length]? = some (.ok t) := by simp [hscan]
  have hahead : (scan source)[ts.length + 1]? = some (.ok ahead) := by simp [hscan]
  obtain ⟨before, after, hlocated⟩ := exists_located hanswer
  refine ⟨ts.length, before, after, ?_, ?_, hlocated, hahead⟩
  · simp [hts]
  · simp [hts]

end Run

/-! ## Diagnoses of a token -/

/-- **Attribution.** When a name that means nothing or that is declared again stops a compilation,
the name is the last token consumed, and the diagnosis bears the line on which it starts. When a
string that is too long does, the string is the last token consumed, but the diagnosis bears the
line on which the next token starts: that of the string, and one more for every line feed between
the two. -/
theorem diagnostic_follows_last_token {options : Options} {unit source : String} {d : Diagnostic}
    (h : compile options unit source = .error (.source d)) :
    (∀ name, d.fault = .unresolved name ∨ d.fault = .redeclared name →
      ∃ n before after, (run options source).tokens.length = n + 1 ∧
        (run options source).tokens[n]? = some ⟨.identifier name, d.line⟩ ∧
        Located source n ⟨.identifier name, d.line⟩ before after) ∧
    (d.fault = .stringTooLong →
      ∃ n characters line next before gap after, (run options source).tokens.length = n + 1 ∧
        (run options source).tokens[n]? = some ⟨.string characters, line⟩ ∧
        maxConstant < characters.toList.length ∧
        Located source n ⟨.string characters, line⟩ before (gap ++ (next.kind.spelling ++ after)) ∧
        GapBefore (next.kind.spelling ++ after) gap ∧
        Located source (n + 1) next
          (before ++ (TokenKind.string characters).spelling ++ gap) after ∧
        d.line = next.line ∧ d.line = line + gap.count '\n') := by
  obtain ⟨e, hproblem, he⟩ := compile_error_iff.mp h
  cases he
  refine ⟨fun name hfault => ?_, fun hfault => ?_⟩
  · have hfault : e.fault = .unresolved name ∨ e.fault = .redeclared name := hfault
    have hlexical : e.fault.category ≠ .lexical := by
      obtain hfault | hfault := hfault <;> simp [hfault, Fault.category]
    obtain ⟨ahead, rest, hcomplaint, hscan⟩ := complaint_of_problem hproblem hlexical
    obtain ⟨n, before, after, hlength, hget, hlocated, -⟩ :=
      exists_last (hcomplaint.last_of_name hfault) hscan
    exact ⟨n, before, after, hlength, hget, hlocated⟩
  · have hfault : e.fault = .stringTooLong := hfault
    obtain ⟨ahead, rest, hcomplaint, hscan⟩ :=
      complaint_of_problem hproblem (by simp [hfault, Fault.category])
    obtain ⟨characters, line, hlast, hlong, hahead⟩ := hcomplaint.last_of_string hfault
    obtain ⟨n, before, after, hlength, hget, hlocated, hnext⟩ := exists_last hlast hscan
    obtain ⟨gap, rest, rfl, hgap, hbehind, hline⟩ := hlocated.next rfl hnext
    exact ⟨n, characters, line, ahead, before, gap, rest, hlength, hget, hlong, hlocated,
      hgap, hbehind, hahead, hahead.trans hline⟩

/-- A name that means nothing, with line breaks and a comment after it. -/
def strayName : String := "class A \x7b function void f() \x7b return\nx /* \n */\n; \x7d \x7d"

theorem strayName_is_blamed :
    compile {} "A" strayName = .error (.source ⟨"A", 2, .unresolved "x"⟩) ∧
      (run {} strayName).tokens.getLast? = some ⟨.identifier "x", 2⟩ ∧
      ∃ before after, strayName.toList = before ++ ('x' :: after) ∧ 2 = 1 + before.count '\n' := by
  have hresult : compile {} "A" strayName = .error (.source ⟨"A", 2, .unresolved "x"⟩) := by
    decide +kernel
  obtain ⟨n, before, after, hlength, hget, hlocated⟩ :=
    (diagnostic_follows_last_token hresult).1 "x" (.inl rfl)
  refine ⟨hresult, ?_, before, after, hlocated.split, hlocated.line⟩
  rw [List.getLast?_eq_getElem?, hlength]
  exact hget

/-! ## A string that is too long -/

namespace Pass

/-- Started on the stream the pass stops with the problem. -/
def Stops {α : Type} (p : Pass α) (a : TokenStream) (e : Problem) : Prop :=
  ∀ journal, ∃ s, p ⟨a, journal⟩ = .error e s

section Stops

variable {α β : Type} {p : Pass α} {f : α → Pass β} {a b : TokenStream} {x : α} {e : Problem}

theorem Stops.first (h : Stops p a e) : Stops (p >>= f) a e := by
  intro journal
  obtain ⟨s, hs⟩ := h journal
  exact ⟨s, bind_error.mpr (.inl hs)⟩

theorem Stops.after (hp : ∀ journal, ∃ journal', p ⟨a, journal⟩ = .ok x ⟨b, journal'⟩)
    (hf : Stops (f x) b e) : Stops (p >>= f) a e := by
  intro journal
  obtain ⟨journal', hp⟩ := hp journal
  obtain ⟨s, hs⟩ := hf journal'
  exact ⟨s, bind_error.mpr (.inr ⟨x, _, hp, hs⟩)⟩

end Stops

section LongString

variable {context : Context} {bound line line' : Nat} {labels : Labels} {characters : String}
  {t : Token} {rest : List Scanned}

/-- A string that is too long stops a term on the line of the next token. -/
theorem stops_term (hlong : maxConstant < characters.toList.length) :
    Stops (term context (bound + 1)) ⟨⟨.string characters, line⟩, .ok t :: rest⟩
      ⟨t.line, .stringTooLong⟩ := by
  have hstring : Stops (stringConstant characters) ⟨t, rest⟩ ⟨t.line, .stringTooLong⟩ := by
    intro journal
    rw [stringConstant, if_neg (Nat.not_le_of_lt hlong)]
    exact ⟨_, rfl⟩
  rw [term, entering_eq]
  refine .after (fun _ => ⟨_, rfl⟩) ?_
  exact .after (fun _ => ⟨_, rfl⟩) hstring

theorem stops_returnStatement (hlong : maxConstant < characters.toList.length) :
    Stops (returnStatement context (bound + 2))
      ⟨⟨.keyword .return_, line'⟩, .ok ⟨.string characters, line⟩ :: .ok t :: rest⟩
      ⟨t.line, .stringTooLong⟩ := by
  have hexpression : Stops (expression context (bound + 2))
      ⟨⟨.string characters, line⟩, .ok t :: rest⟩ ⟨t.line, .stringTooLong⟩ := by
    rw [expression, entering_eq]
    exact (stops_term hlong).first
  refine .after (fun _ => ⟨_, rfl⟩) (.after (fun _ => ⟨_, rfl⟩) ?_)
  exact hexpression.first

theorem stops_statements (hlong : maxConstant < characters.toList.length) :
    Stops (statements context (bound + 4) labels)
      ⟨⟨.keyword .return_, line'⟩, .ok ⟨.string characters, line⟩ :: .ok t :: rest⟩
      ⟨t.line, .stringTooLong⟩ := by
  have hstatement : Stops (statement context (bound + 3) labels)
      ⟨⟨.keyword .return_, line'⟩, .ok ⟨.string characters, line⟩ :: .ok t :: rest⟩
      ⟨t.line, .stringTooLong⟩ := by
    rw [statement, entering_eq]
    refine .after (fun _ => ⟨_, rfl⟩) ?_
    exact (stops_returnStatement hlong).first
  rw [statements, entering_eq]
  refine .after (fun _ => ⟨_, rfl⟩) ?_
  exact hstatement.first

end LongString

end Pass

/-- The tokens of a function that returns a string. What comes after the string is on the next
line. -/
def longReturn (characters : String) : List Piece :=
  [⟨[], .keyword .class_⟩, ⟨[' '], .identifier "A"⟩, ⟨[' '], .symbol .leftBrace⟩,
    ⟨[' '], .keyword .function⟩, ⟨[' '], .keyword .void⟩, ⟨[' '], .identifier "f"⟩,
    ⟨[' '], .symbol .leftParen⟩, ⟨[' '], .symbol .rightParen⟩, ⟨[' '], .symbol .leftBrace⟩,
    ⟨[' '], .keyword .return_⟩, ⟨[' '], .string characters⟩, ⟨['\n'], .symbol .semicolon⟩,
    ⟨[' '], .symbol .rightBrace⟩, ⟨[' '], .symbol .rightBrace⟩]

/-- The stream of these tokens, from the first one on. -/
def longReturnStream (characters : String) : TokenStream :=
  ⟨⟨.keyword .class_, 1⟩, [.ok ⟨.identifier "A", 1⟩, .ok ⟨.symbol .leftBrace, 1⟩,
    .ok ⟨.keyword .function, 1⟩, .ok ⟨.keyword .void, 1⟩, .ok ⟨.identifier "f", 1⟩,
    .ok ⟨.symbol .leftParen, 1⟩, .ok ⟨.symbol .rightParen, 1⟩, .ok ⟨.symbol .leftBrace, 1⟩,
    .ok ⟨.keyword .return_, 1⟩, .ok ⟨.string characters, 1⟩, .ok ⟨.symbol .semicolon, 2⟩,
    .ok ⟨.symbol .rightBrace, 2⟩, .ok ⟨.symbol .rightBrace, 2⟩, .ok ⟨.eof, 2⟩]⟩

/-- Their text. -/
def longReturnText (characters : String) : String :=
  String.ofList (Piece.row (longReturn characters))

theorem scan_longReturnText {characters : String} (h : (TokenKind.string characters).WellFormed) :
    scan (longReturnText characters) = (longReturnStream characters).answers := by
  have hA : (TokenKind.identifier "A").WellFormed := by decide
  have hf : (TokenKind.identifier "f").WellFormed := by decide
  have hkinds : ∀ p ∈ longReturn characters, p.kind.WellFormed := by simp [longReturn, hA, hf, h]
  have hseparator : ∀ c, isBlank c = true → Separator [c] := fun c hc =>
    ⟨.blank hc .nil, c, [], rfl, hc⟩
  have hmore : ∀ p ∈ (longReturn characters).tail, Separator p.gap := by
    have hspace := hseparator ' ' (by decide)
    have hline := hseparator '\n' (by decide)
    simp [longReturn, hspace, hline]
  have hlaid : Piece.LaidOut [] (longReturn characters) :=
    laidOut_of_separators hkinds (by simp [longReturn, Filling.nil]) hmore (.inl rfl)
  have hscan := scan_of_laidOut hlaid
  -- the line feed before the semicolon is the only one
  have hkeyword : ∀ w, (TokenKind.keyword w).spelling.count '\n' = 0 := fun w =>
    (TokenKind.wellFormed_keyword w).count_spelling
  have hsymbol : ∀ y, (TokenKind.symbol y).spelling.count '\n' = 0 := fun y =>
    (TokenKind.wellFormed_symbol y).count_spelling
  rw [List.append_nil] at hscan
  rw [longReturnText, hscan]
  simp [longReturn, longReturnStream, TokenStream.answers, Piece.tokens, Piece.row, Piece.text,
    hkeyword, hsymbol, hA.count_spelling, hf.count_spelling, h.count_spelling]

/-- The pass comes to the string by way of the class, the function and its statements. -/
theorem Pass.stops_longReturn {characters : String}
    (hlong : maxConstant < characters.toList.length) :
    Stops (compilationUnit {} 64) (longReturnStream characters) ⟨2, .stringTooLong⟩ := by
  -- the head of the class and its variables, of which there are none
  refine .first (.after (fun _ => ⟨_, rfl⟩) (.after (fun _ => ⟨_, rfl⟩)
    (.after (fun _ => ⟨_, rfl⟩) ?_)))
  refine .after (fun _ => ⟨_, rfl⟩) (.first (.after (fun _ => ⟨_, rfl⟩)
    (.after (fun _ => ⟨_, rfl⟩) ?_)))
  -- the head of the function
  rw [subroutines, entering_eq]
  refine .after (fun _ => ⟨_, rfl⟩) ?_
  refine .after (fun _ => ⟨_, rfl⟩) (.first ?_)
  refine .after (fun _ => ⟨_, rfl⟩) ?_
  refine .after (fun _ => ⟨_, rfl⟩) (.after (fun _ => ⟨_, rfl⟩) (.after (fun _ => ⟨_, rfl⟩) ?_))
  -- its body
  refine .after (fun _ => ⟨_, rfl⟩) (.first (.after (fun _ => ⟨_, rfl⟩) ?_))
  refine .after (fun _ => ⟨_, rfl⟩) (.after (fun _ => ⟨_, rfl⟩) (.after (fun _ => ⟨_, rfl⟩)
    (.after (fun _ => ⟨_, rfl⟩) ?_)))
  exact (stops_statements hlong).first

/-- The string is on the first line and is blamed on the second. -/
theorem compile_longReturnText {characters : String}
    (hkind : (TokenKind.string characters).WellFormed)
    (hlong : maxConstant < characters.toList.length) :
    compile {} "Main" (longReturnText characters) =
        .error (.source ⟨"Main", 2, .stringTooLong⟩) ∧
      (scan (longReturnText characters))[10]? = some (.ok ⟨.string characters, 1⟩) := by
  have hscan := scan_longReturnText hkind
  have hsource : TokenStream.ofSource (longReturnText characters) =
      .ok (longReturnStream characters) := by
    rw [TokenStream.ofSource, hscan]
    rfl
  have hbound : passBound (longReturnStream characters) = 64 := rfl
  obtain ⟨s, hs⟩ := Pass.stops_longReturn hlong #[]
  have hproblem : (run {} (longReturnText characters)).problem = some ⟨2, .stringTooLong⟩ := by
    rw [run_of_pass_error hsource (hbound ▸ hs)]
  refine ⟨compile_error_iff.mpr ⟨_, hproblem, rfl⟩, ?_⟩
  rw [hscan]
  rfl

/-- A string of one character more than the limit. -/
def longString : String := String.ofList (List.replicate 32768 'a')

theorem longString_is_blamed_late :
    compile {} "Main" (longReturnText longString) =
        .error (.source ⟨"Main", 2, .stringTooLong⟩) ∧
      (scan (longReturnText longString))[10]? = some (.ok ⟨.string longString, 1⟩) := by
  have hlist : longString.toList = List.replicate 32768 'a' := String.toList_ofList
  have hkind : (TokenKind.string longString).WellFormed := by
    show longString.toList.all Cursor.isStringChar = true
    rw [hlist, List.all_replicate]
    decide
  have hlong : maxConstant < longString.toList.length := by
    rw [hlist, List.length_replicate]
    decide
  exact compile_longReturnText hkind hlong

end Jack
