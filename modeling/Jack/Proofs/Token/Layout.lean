import Jack.Proofs.Token.Spelling

/-!
# The layout of a text

A text that is scanned without a problem is a row of tokens with gaps between them, and nothing of
it is lost. `LaidOut` says when tokens and gaps may stand one after the other: every gap is one
before what follows it, every token is well-formed and ends before what follows it.

1. A text laid out like this is scanned to its tokens, and the line of a token is found by counting
   the line breaks before it (`answers_of_laidOut`).
2. A text that is scanned is laid out like this, by repeated use of `exists_spelling_of_next`. So
   the two notions agree (`scans_iff_laidOut`).
3. Tokens with a separator after each are laid out like this, so that they are read back as they are
   (`scan_separated`, and `scans_spelled` for single blanks).
-/

namespace Jack

open Text

/-- A token in a text, and the gap before it. -/
structure Piece where
  gap : List Char
  kind : TokenKind

namespace Piece

/-- The text of a token and of the gap before it. -/
def text (p : Piece) : List Char := p.gap ++ p.kind.spelling

/-- The text of tokens with their gaps. -/
def row (ps : List Piece) : List Char := ps.flatMap text

/-- The tokens of a row that starts after the given text. The line of a token is one more than the
number of line feeds before it. -/
def tokens (before : List Char) : List Piece → List Token
  | [] => []
  | p :: ps => ⟨p.kind, 1 + (before ++ p.gap).count '\n'⟩ :: tokens (before ++ p.text) ps

/-- Whether the tokens with their gaps, and a last gap, may stand one after the other. -/
def LaidOut (last : List Char) : List Piece → Prop
  | [] => GapBefore [] last
  | p :: ps => GapBefore (p.kind.spelling ++ (row ps ++ last)) p.gap ∧ p.kind.WellFormed ∧
      p.kind.EndsBefore (row ps ++ last) ∧ LaidOut last ps

theorem row_nil (last : List Char) : row [] ++ last = last := rfl

theorem row_cons (p : Piece) (ps : List Piece) (last : List Char) :
    row (p :: ps) ++ last = p.gap ++ (p.kind.spelling ++ (row ps ++ last)) := by
  simp [row, text]

theorem map_kind_tokens (before : List Char) (ps : List Piece) :
    (tokens before ps).map Token.kind = ps.map kind := by
  induction ps generalizing before with
  | nil => rfl
  | cons p ps ih => rw [tokens, List.map_cons, List.map_cons, ih]

end Piece

/-! ## From the layout to the tokens -/

/-- No token holds a line feed. -/
theorem TokenKind.WellFormed.count_spelling {k : TokenKind} (h : k.WellFormed) :
    k.spelling.count '\n' = 0 := by
  have hname : ∀ {text : List Char}, text.all Cursor.isNameChar = true → text.count '\n' = 0 := by
    intro text htext
    rw [List.count_eq_zero]
    intro hmem
    exact absurd (List.all_eq_true.mp htext _ hmem) (by decide)
  cases k with
  | keyword w => cases w <;> decide
  | symbol s => cases s <;> decide
  | integer value digits => exact hname (Cursor.isNameChar_of_isDigit h.2.1)
  | string characters =>
    have hmem : '\n' ∉ characters.toList := fun hmem =>
      absurd (List.all_eq_true.mp h _ hmem) (by decide)
    simp [spelling, List.count_eq_zero.mpr hmem]
  | identifier name => exact hname h.2.2.2
  | eof => exact h.elim

theorem Cursor.next_end {gap : List Char} (h : GapBefore [] gap) (line : Nat) :
    next ⟨gap, line⟩ = (.ok ⟨.eof, line + gap.count '\n'⟩, ⟨[], line + gap.count '\n'⟩) := by
  have hnext := next_gap h line
  rw [List.append_nil] at hnext
  rw [hnext]
  rfl

/-- A row of tokens with gaps is scanned to its tokens. -/
theorem answers_of_laidOut {last : List Char} {ps : List Piece} (h : Piece.LaidOut last ps)
    (before : List Char) :
    Cursor.answers ⟨Piece.row ps ++ last, 1 + before.count '\n'⟩ =
      (Piece.tokens before ps).map .ok ++
        [.ok ⟨.eof, 1 + (before ++ (Piece.row ps ++ last)).count '\n'⟩] := by
  induction ps generalizing before with
  | nil =>
    rw [Piece.row_nil, Cursor.answers_eq, Cursor.next_end h]
    simp [Piece.tokens, Cursor.isEnd, Token.isEof, TokenKind.isEof, Nat.add_assoc]
  | cons p ps ih =>
    obtain ⟨hgap, hkind, hends, hrest⟩ := h
    have hline : 1 + before.count '\n' + p.gap.count '\n' = 1 + (before ++ p.text).count '\n' := by
      simp [Piece.text, hkind.count_spelling, Nat.add_assoc]
    rw [Piece.row_cons, Cursor.answers_eq, Cursor.next_gap hgap,
      Cursor.next_spelling hkind hends, Cursor.isEnd_of_wellFormed hkind,
      if_neg Bool.false_ne_true, hline, ih hrest]
    simp [Piece.tokens, Piece.text, hkind.count_spelling]

theorem scan_of_laidOut {last : List Char} {ps : List Piece} (h : Piece.LaidOut last ps) :
    scan (String.ofList (Piece.row ps ++ last)) =
      (Piece.tokens [] ps).map .ok ++ [.ok ⟨.eof, 1 + (Piece.row ps ++ last).count '\n'⟩] := by
  have hanswers := answers_of_laidOut h []
  rw [scan, Cursor.start, String.toList_ofList]
  exact hanswers

theorem scans_of_laidOut {last : List Char} {ps : List Piece} (h : Piece.LaidOut last ps) :
    Scans (String.ofList (Piece.row ps ++ last)) (ps.map Piece.kind) :=
  ⟨Piece.tokens [] ps, _, scan_of_laidOut h, Piece.map_kind_tokens [] ps⟩

/-! ## From the tokens to the layout -/

/-- What is scanned to its end without a problem is a row of tokens with gaps. -/
theorem exists_laidOut {cursor : Cursor} {tokens : List Token} {line : Nat}
    (h : cursor.answers = tokens.map .ok ++ [.ok ⟨.eof, line⟩]) :
    ∃ ps last, ps.map Piece.kind = tokens.map Token.kind ∧
      cursor.rest = Piece.row ps ++ last ∧ Piece.LaidOut last ps := by
  induction tokens generalizing cursor with
  | nil =>
    rw [Cursor.answers_eq] at h
    have hnext : cursor.next = (.ok ⟨.eof, line⟩, cursor.next.2) :=
      Prod.ext (List.cons.inj h).1 rfl
    exact ⟨[], cursor.rest, rfl, rfl, Cursor.gap_of_next_eof hnext⟩
  | cons token tokens ih =>
    rw [Cursor.answers_eq] at h
    obtain ⟨hfirst, hlater⟩ := List.cons.inj h
    have hnext : cursor.next = (.ok token, cursor.next.2) := Prod.ext hfirst rfl
    -- there is an answer after this one, so it is not the end
    have hend : token.isEof = false := by
      rw [hfirst] at hlater
      cases htoken : token.isEof with
      | false => rfl
      | true => simp [Cursor.isEnd, htoken] at hlater
    rw [hfirst] at hlater
    simp only [Cursor.isEnd, hend, Bool.false_eq_true, if_false] at hlater
    obtain ⟨ps, last, hkinds, hrest, hlaid⟩ := ih hlater
    obtain ⟨gap, htext, hgap, hends, -⟩ := Cursor.exists_spelling_of_next hnext hend
    rw [hrest] at htext hgap hends
    have hkind := Cursor.wellFormed_of_next hfirst hend
    refine ⟨⟨gap, token.kind⟩ :: ps, last, by rw [List.map_cons, hkinds, List.map_cons], ?_,
      hgap, hkind, hends, hlaid⟩
    rw [htext, Piece.row_cons]

/-! ## Words -/

/-- The tokens that are words. -/
def TokenKind.IsWord : TokenKind → Prop
  | .keyword _ | .integer _ _ | .identifier _ => True
  | .symbol _ | .string _ | .eof => False

/-- A word is of the kind that its text calls for: a keyword if it is in the table, else a number if
it is in digits and within the limit, else a name. A number has the value of its digits. -/
structure TokenKind.Classified (k : TokenKind) : Prop where
  keyword : k.tag = .keyword ↔ ∃ w : Keyword, w.text = k.lexeme
  integer : k.tag = .integerConstant ↔ k.lexeme.toList ≠ [] ∧
    k.lexeme.toList.all Char.isDigit = true ∧ Cursor.decimalValue k.lexeme.toList ≤ maxConstant
  value : ∀ v digits, k = .integer v digits → v = Cursor.decimalValue digits.toList
  identifier : k.tag = .identifier ↔ (∀ w : Keyword, w.text ≠ k.lexeme) ∧
    k.lexeme.toList ≠ [] ∧ k.lexeme.toList.head?.any Char.isDigit = false ∧
    k.lexeme.toList.all Cursor.isNameChar = true

theorem Keyword.ofText?_eq_none_iff {text : String} :
    Keyword.ofText? text = none ↔ ∀ w : Keyword, w.text ≠ text := by
  rw [Option.eq_none_iff_forall_ne_some]
  exact forall_congr' fun w => not_congr Keyword.ofText?_eq_some_iff

theorem TokenKind.WellFormed.classified {k : TokenKind} (h : k.WellFormed) (hword : k.IsWord) :
    k.Classified := by
  cases k with
  | keyword w =>
    have hdigits : w.text.toList.all Char.isDigit = false := by cases w <;> decide
    refine ⟨⟨fun _ => ⟨w, rfl⟩, fun _ => rfl⟩, ⟨by simp [tag], ?_⟩, by simp, ⟨by simp [tag], ?_⟩⟩
    · rintro ⟨-, hall, -⟩
      simp [lexeme, hdigits] at hall
    · rintro ⟨hnone, -⟩
      exact absurd rfl (hnone w)
  | integer value digits =>
    obtain ⟨htext, hdigits, hvalue, hle⟩ := h
    have hkeyword : ∀ w : Keyword, w.text ≠ digits := by
      rw [← Keyword.ofText?_eq_none_iff, ← String.ofList_toList (s := digits)]
      exact Cursor.ofText?_of_isDigit hdigits
    have hfirst : digits.toList.head?.any Char.isDigit = true := by
      obtain ⟨c, cs, hcs⟩ := List.exists_cons_of_ne_nil htext
      rw [hcs, List.all_cons, Bool.and_eq_true] at hdigits
      rw [hcs]
      exact hdigits.1
    refine ⟨⟨by simp [tag], ?_⟩, ⟨fun _ => ⟨htext, hdigits, hvalue ▸ hle⟩, fun _ => rfl⟩, ?_,
      ⟨by simp [tag], ?_⟩⟩
    · rintro ⟨w, hw⟩
      exact absurd hw (hkeyword w)
    · rintro v d ⟨⟩
      exact hvalue.symm
    · rintro ⟨-, -, hnone, -⟩
      simp [lexeme, hfirst] at hnone
  | identifier name =>
    obtain ⟨hkeyword, htext, hfirst, hname⟩ := h
    rw [Keyword.ofText?_eq_none_iff] at hkeyword
    refine ⟨⟨by simp [tag], ?_⟩, ⟨by simp [tag], ?_⟩, by simp,
      ⟨fun _ => ⟨hkeyword, htext, hfirst, hname⟩, fun _ => rfl⟩⟩
    · rintro ⟨w, hw⟩
      exact absurd hw (hkeyword w)
    · rintro ⟨-, hdigits, -⟩
      obtain ⟨c, cs, hcs⟩ := List.exists_cons_of_ne_nil htext
      simp only [lexeme, hcs, List.all_cons, Bool.and_eq_true] at hdigits
      simp [hcs, hdigits.1] at hfirst
  | symbol s => exact hword.elim
  | string characters => exact hword.elim
  | eof => exact hword.elim

theorem Piece.LaidOut.wellFormed {last : List Char} {ps : List Piece} (h : LaidOut last ps) :
    ∀ p ∈ ps, p.kind.WellFormed := by
  induction ps with
  | nil => simp
  | cons p ps ih =>
    obtain ⟨-, hkind, -, hrest⟩ := h
    exact List.forall_mem_cons.mpr ⟨hkind, ih hrest⟩

/-- **Nothing is lost.** A text is scanned to given tokens exactly if it consists of their spellings
with gaps before, between and after them, where every word and every slash ends before what follows
it; and every word is of the kind that its text calls for. -/
theorem scans_iff_laidOut (source : String) (ks : List TokenKind) :
    Scans source ks ↔ ∃ (ps : List Piece) (last : List Char), ps.map Piece.kind = ks ∧
      source.toList = Piece.row ps ++ last ∧ Piece.LaidOut last ps ∧
      ∀ k ∈ ks, k.IsWord → k.Classified := by
  constructor
  · rintro ⟨tokens, line, hscan, rfl⟩
    obtain ⟨ps, last, hkinds, hrest, hlaid⟩ := exists_laidOut hscan
    refine ⟨ps, last, hkinds, hrest, hlaid, ?_⟩
    intro k hk
    rw [← hkinds] at hk
    obtain ⟨p, hp, rfl⟩ := List.mem_map.mp hk
    exact (hlaid.wellFormed p hp).classified
  · rintro ⟨ps, last, rfl, hsource, hlaid, -⟩
    have hscans := scans_of_laidOut hlaid
    rwa [← hsource, String.ofList_toList] at hscans

/-! ## Separators -/

/-- A row of blanks, of comments that a line break ends, and of closed comments. -/
inductive Filling : List Char → Prop
  | nil : Filling []
  | blank {c : Char} {gap : List Char} (hc : isBlank c = true) (h : Filling gap) :
      Filling (c :: gap)
  | lineComment {text gap : List Char} {c : Char} (htext : ∀ d ∈ text, isLineBreak d = false)
      (hc : isLineBreak c = true) (h : Filling gap) : Filling ('/' :: '/' :: (text ++ c :: gap))
  | blockComment {text gap : List Char} (htext : ¬ ['*', '/'] <:+: text) (h : Filling gap) :
      Filling ('/' :: '*' :: (text ++ '*' :: '/' :: gap))

/-- A filling is a gap wherever it stands. -/
theorem Filling.gapBefore {gap : List Char} (h : Filling gap) (rest : List Char) :
    GapBefore rest gap := by
  induction h with
  | nil => exact .nil
  | blank hc h ih => exact .blank hc ih
  | lineComment htext hc h ih =>
    exact .lineComment htext (by simpa using hc) (.blank (isBlank_of_isLineBreak hc) ih)
  | blockComment htext h ih => exact .blockComment htext ih

/-- A filling that starts with a blank. -/
def Separator (gap : List Char) : Prop :=
  Filling gap ∧ ∃ c cs, gap = c :: cs ∧ isBlank c = true

/-- Every token ends before a separator, and before the end of the text. -/
theorem TokenKind.endsBefore_of_blank {rest : List Char}
    (h : ∀ c ∈ rest.head?, isBlank c = true) (k : TokenKind) : k.EndsBefore rest := by
  have hdelimiter : ∀ c ∈ rest.head?, Cursor.isDelimiter c = true := by
    intro c hc
    simp [Cursor.isDelimiter, h c hc]
  have hmark : ∀ c ∈ rest.head?, c ≠ '/' ∧ c ≠ '*' := by
    intro c hc
    constructor <;> rintro rfl <;> exact absurd (h _ hc) (by decide)
  cases k with
  | symbol s =>
    cases s with
    | slash => exact hmark
    | _ => trivial
  | string characters => trivial
  | eof => trivial
  | _ => exact hdelimiter

theorem Separator.head_blank {gap : List Char} (h : Separator gap) (rest : List Char) :
    ∀ c ∈ (gap ++ rest).head?, isBlank c = true := by
  obtain ⟨-, c, cs, rfl, hc⟩ := h
  simpa using hc

/-- Tokens with separators between them are laid out well. -/
theorem laidOut_of_separators {ps : List Piece} {last : List Char}
    (hkinds : ∀ p ∈ ps, p.kind.WellFormed) (hfirst : ∀ p ∈ ps.head?, Filling p.gap)
    (hmore : ∀ p ∈ ps.tail, Separator p.gap) (hlast : last = [] ∨ Separator last) :
    Piece.LaidOut last ps := by
  induction ps with
  | nil =>
    obtain rfl | hlast := hlast
    · exact GapBefore.nil
    · exact hlast.1.gapBefore []
  | cons p ps ih =>
    rw [List.forall_mem_cons] at hkinds
    rw [List.tail_cons] at hmore
    have hblank : ∀ c ∈ (Piece.row ps ++ last).head?, isBlank c = true := by
      cases ps with
      | nil =>
        rw [Piece.row_nil]
        obtain rfl | hlast := hlast
        · simp
        · have hhead := hlast.head_blank []
          rwa [List.append_nil] at hhead
      | cons q qs =>
        rw [Piece.row_cons]
        exact (hmore q (List.mem_cons_self ..)).head_blank _
    have hrest := ih hkinds.2 (fun q hq => (hmore q (List.mem_of_mem_head? hq)).1)
      fun q hq => hmore q (List.mem_of_mem_tail hq)
    exact ⟨(hfirst p rfl).gapBefore _, hkinds.1, p.kind.endsBefore_of_blank hblank, hrest⟩

/-- **Reading undoes writing.** Well-formed tokens, written with a separator between each two of
them and perhaps a filling before and a separator after them, are scanned to these tokens, each on
the line found by counting the line feeds written before it, and then to the end of the input. -/
theorem scan_separated (ps : List Piece) (last : List Char)
    (hkinds : ∀ p ∈ ps, p.kind.WellFormed) (hfirst : ∀ p ∈ ps.head?, Filling p.gap)
    (hmore : ∀ p ∈ ps.tail, Separator p.gap) (hlast : last = [] ∨ Separator last) :
    scan (String.ofList (Piece.row ps ++ last)) =
      (Piece.tokens [] ps).map .ok ++ [.ok ⟨.eof, 1 + (Piece.row ps ++ last).count '\n'⟩] :=
  scan_of_laidOut (laidOut_of_separators hkinds hfirst hmore hlast)

/-- A division with comments around it, one of them with a quote in it, and with comment marks in a
string. -/
def divisionPieces : List Piece := [
  ⟨"/* it's \"so\" **/\n".toList, .keyword .return_⟩,
  ⟨"\t".toList, .string "/* // */"⟩,
  ⟨" // over\n\n".toList, .symbol .slash⟩,
  ⟨"\n/*/ */".toList, .integer 7 "007"⟩,
  ⟨" ".toList, .symbol .semicolon⟩]

theorem scan_divisionPieces :
    (∀ p ∈ divisionPieces, p.kind.WellFormed) ∧ (∀ p ∈ divisionPieces.head?, Filling p.gap) ∧
    (∀ p ∈ divisionPieces.tail, Separator p.gap) ∧
    scan "/* it's \"so\" **/\nreturn\t\"/* // */\" // over\n\n/\n/*/ */007 ;" =
      [.ok ⟨.keyword .return_, 2⟩, .ok ⟨.string "/* // */", 2⟩, .ok ⟨.symbol .slash, 4⟩,
        .ok ⟨.integer 7 "007", 5⟩, .ok ⟨.symbol .semicolon, 5⟩, .ok ⟨.eof, 5⟩] := by
  have hkinds : ∀ p ∈ divisionPieces, p.kind.WellFormed := by decide
  have hfirst : ∀ p ∈ divisionPieces.head?, Filling p.gap := by
    rintro p ⟨⟩
    exact @Filling.blockComment " it's \"so\" *".toList _ (by decide) (.blank (by decide) .nil)
  have hmore : ∀ p ∈ divisionPieces.tail, Separator p.gap := by
    intro p hp
    simp only [divisionPieces, List.tail_cons, List.mem_cons, List.not_mem_nil, or_false] at hp
    obtain rfl | rfl | rfl | rfl := hp
    · exact ⟨.blank (by decide) .nil, _, _, rfl, by decide⟩
    · exact ⟨.blank (by decide) (@Filling.lineComment " over".toList _ '\n' (by simp [isLineBreak])
        (by decide) (.blank (by decide) .nil)), _, _, rfl, by decide⟩
    · exact ⟨.blank (by decide) (@Filling.blockComment "/ ".toList _ (by decide) .nil), _, _, rfl,
        by decide⟩
    · exact ⟨.blank (by decide) .nil, _, _, rfl, by decide⟩
  exact ⟨hkinds, hfirst, hmore, scan_separated divisionPieces [] hkinds hfirst hmore (.inl rfl)⟩

/-! ## Single blanks -/

/-- The text of tokens, each with a blank after it. -/
def spelled (ks : List TokenKind) : String :=
  String.ofList (ks.flatMap fun k => k.spelling ++ [' '])

theorem row_blanks (ks : List TokenKind) :
    Piece.row (ks.map fun k => ⟨[' '], k⟩) ++ [' '] =
      ' ' :: ks.flatMap fun k => k.spelling ++ [' '] := by
  induction ks with
  | nil => rfl
  | cons k ks ih => simp [Piece.row_cons, ih]

/-- **Spelling.** A text that is spelled out scans to its tokens. -/
theorem scans_spelled {ks : List TokenKind} (h : ∀ k ∈ ks, k.WellFormed) :
    Scans (spelled ks) ks := by
  cases ks with
  | nil => exact @scans_of_laidOut [] [] GapBefore.nil
  | cons k ks =>
    have hseparator : Separator [' '] := ⟨.blank (by decide) .nil, _, _, rfl, by decide⟩
    have hlaid : Piece.LaidOut [' '] (⟨[], k⟩ :: ks.map fun k => ⟨[' '], k⟩) :=
      laidOut_of_separators (by simpa using h) (by simpa using Filling.nil)
        (by simpa using fun _ _ => hseparator) (.inr hseparator)
    have hscans := scans_of_laidOut hlaid
    rw [Piece.row_cons, row_blanks] at hscans
    simpa [spelled, Function.comp_def] using hscans

end Jack
