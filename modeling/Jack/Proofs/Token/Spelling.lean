import Mathlib.Data.Set.Finite.Basic
import Std.Data.String.ToNat
import Jack.Proofs.Token.Gap
import Jack.Proofs.Token.Scans

/-!
# The spelling of a token

How one token is written, and that it is read back. A token may stand before some texts only: a word
goes on to the next delimiter, and a slash before a further slash or a star opens a comment.

1. Where no gap is, the spelling of a token is read as this token (`next_spelling`), by one lemma
   for words, one for symbols and one for strings.
2. A token that is read was spelled after a gap, and the cursor stands right after it
   (`exists_spelling_of_next`).
3. There are names without end (`exists_fresh`).
-/

namespace Jack

open Text

namespace TokenKind

/-- The text of a token in a source. -/
def spelling : TokenKind → List Char
  | .string characters => '"' :: (characters.toList ++ ['"'])
  | kind => kind.lexeme.toList

/-- Whether the token ends before the given text: a keyword, a number and a name end where the text
ends or a delimiter stands, a slash where no comment is opened. -/
def EndsBefore (rest : List Char) : TokenKind → Prop
  | .keyword _ | .integer _ _ | .identifier _ => ∀ c ∈ rest.head?, Cursor.isDelimiter c = true
  | .symbol .slash => ∀ c ∈ rest.head?, c ≠ '/' ∧ c ≠ '*'
  | .symbol _ | .string _ | .eof => True

theorem spelling_symbol (s : Symbol) : (TokenKind.symbol s).spelling = [s.char] :=
  String.toList_singleton _

end TokenKind

namespace Cursor

/-! ## Words -/

/-- The characters of names, by their codes. -/
theorem isNameChar_eq (c : Char) : isNameChar c =
    (decide (c.val ≥ 'A'.val ∧ c.val ≤ 'Z'.val) ||
      (decide (c.val ≥ 'a'.val) && decide (c.val ≤ 'z'.val)) ||
      (decide (c.val ≥ '0'.val) && decide (c.val ≤ '9'.val)) || c == '_') := rfl

theorem toNat_of_isNameChar {c : Char} (h : isNameChar c = true) :
    48 ≤ c.toNat ∧ c.toNat ≤ 122 := by
  simp only [isNameChar_eq, Bool.or_eq_true, Bool.and_eq_true, decide_eq_true_eq, ge_iff_le,
    UInt32.le_iff_toNat_le, beq_iff_eq] at h
  obtain h | rfl := h
  · simp only [Char.reduceVal, UInt32.reduceToNat] at h
    unfold Char.toNat
    omega
  · decide

theorem isDelimiter_of_isNameChar {c : Char} (h : isNameChar c = true) : isDelimiter c = false := by
  rw [← Bool.not_eq_true]
  intro hc
  simp only [isDelimiter, Bool.or_eq_true, beq_iff_eq] at hc
  obtain (hblank | rfl) | hsymbol := hc
  · have hranges : ∀ range ∈ blankRanges, range.2 < 48 ∨ 122 < range.1 := by decide
    obtain ⟨range, hrange, hfirst, hlast⟩ := Ranges.contains_iff.mp hblank
    have hcode := toNat_of_isNameChar h
    have := hranges range hrange
    omega
  · cases h
  · obtain ⟨s, hs⟩ := Option.isSome_iff_exists.mp hsymbol
    rw [← Symbol.char_of_ofChar? hs] at h
    cases s <;> cases h

/-- A word in digits is no keyword. -/
theorem ofText?_of_isDigit {text : List Char} (hdigits : text.all Char.isDigit = true) :
    Keyword.ofText? (String.ofList text) = none := by
  cases hk : Keyword.ofText? (String.ofList text) with
  | none => rfl
  | some k =>
    have hlist : k.text.toList = text := by
      rw [Keyword.text_of_ofText? hk, String.toList_ofList]
    rw [← hlist] at hdigits
    cases k <;> cases hdigits

theorem isNameChar_of_isDigit {text : List Char} (h : text.all Char.isDigit = true) :
    text.all isNameChar = true := by
  rw [List.all_eq_true] at h ⊢
  intro c hc
  simp [isNameChar, Char.isAlphanum, h c hc]

theorem wordKind_digits {text : List Char} (htext : text ≠ [])
    (hdigits : text.all Char.isDigit = true) (hvalue : decimalValue text ≤ maxConstant) :
    wordKind text = .ok (.integer (decimalValue text) (String.ofList text)) := by
  have hfirst : text.head?.any Char.isDigit = true := by
    obtain ⟨c, cs, rfl⟩ := List.exists_cons_of_ne_nil htext
    exact (List.all_eq_true.mp hdigits) c (List.mem_cons_self ..)
  unfold wordKind
  simp only [ofText?_of_isDigit hdigits, hfirst, hdigits, hvalue, if_true]

theorem wordKind_name {name : String} (hkeyword : Keyword.ofText? name = none)
    (hfirst : name.toList.head?.any Char.isDigit = false)
    (hname : name.toList.all isNameChar = true) :
    wordKind name.toList = .ok (.identifier name) := by
  unfold wordKind
  simp only [String.ofList_toList, hkeyword, hfirst, hname, Bool.false_eq_true, if_false, if_true]

/-- A word stands for a token that is spelled like the word and ends before delimiters. -/
theorem spelling_of_wordKind {word : List Char} {kind : TokenKind} (h : wordKind word = .ok kind) :
    kind.spelling = word ∧ ∀ {rest : List Char}, (∀ c ∈ rest.head?, isDelimiter c = true) →
      kind.EndsBefore rest := by
  unfold wordKind at h
  cases hk : Keyword.ofText? (String.ofList word) with
  | some k =>
    simp only [hk] at h
    obtain rfl := Except.ok.inj h
    refine ⟨?_, fun hrest => hrest⟩
    rw [TokenKind.spelling, TokenKind.lexeme, Keyword.text_of_ofText? hk, String.toList_ofList]
    simp
  | none =>
    simp only [hk] at h
    split_ifs at h
    · obtain rfl := Except.ok.inj h
      exact ⟨String.toList_ofList, fun hrest => hrest⟩
    · obtain rfl := Except.ok.inj h
      exact ⟨String.toList_ofList, fun hrest => hrest⟩

/-! ## Reading -/

theorem next_of_solid {c : Char} {cs : List Char} (h : Solid (c :: cs)) (line : Nat) :
    next ⟨c :: cs, line⟩ = if c = '"' then string cs line else
      match Symbol.ofChar? c with
      | some s => (.ok ⟨.symbol s, line⟩, ⟨cs, line⟩)
      | none => word c cs line := by
  have hskip := skipGap_of_solid h line
  unfold next
  exact hskip ▸ rfl

/-- A gap does not matter to what is read, but its lines are counted. -/
theorem next_gap {gap rest : List Char} (h : GapBefore rest gap) (line : Nat) :
    next ⟨gap ++ rest, line⟩ = next ⟨rest, line + gap.count '\n'⟩ := by
  unfold next
  rw [h.skipGap_append]

theorem solid_cons {c : Char} {cs : List Char} (hc : isBlank c = false)
    (hslash : c = '/' → ∀ d ∈ cs.head?, d ≠ '/' ∧ d ≠ '*') : Solid (c :: cs) := by
  intro c' cs' heq
  obtain ⟨rfl, rfl⟩ := List.cons.inj heq
  exact ⟨hc, hslash⟩

/-- A word before a delimiter is read as what it stands for. -/
theorem next_word {text rest : List Char} {kind : TokenKind} {line : Nat} (htext : text ≠ [])
    (hname : text.all isNameChar = true) (hkind : wordKind text = .ok kind)
    (hrest : ∀ c ∈ rest.head?, isDelimiter c = true) :
    next ⟨text ++ rest, line⟩ = (.ok ⟨kind, line⟩, ⟨rest, line⟩) := by
  have hsolid : ∀ c ∈ text, isDelimiter c = false := fun c hc =>
    isDelimiter_of_isNameChar (List.all_eq_true.mp hname c hc)
  obtain ⟨c, cs, rfl⟩ := List.exists_cons_of_ne_nil htext
  have hc := hsolid c (List.mem_cons_self ..)
  simp only [isDelimiter, Bool.or_eq_false_iff, Option.isSome_eq_false_iff,
    Option.isNone_iff_eq_none] at hc
  have hquote : c ≠ '"' := by simpa using hc.1.2
  have hslash : c ≠ '/' := by
    rintro rfl
    exact absurd hc.2 (by decide)
  have hcs : ∀ d ∈ cs, (!isDelimiter d) = true := fun d hd => by
    rw [hsolid d (List.mem_cons_of_mem _ hd)]
    rfl
  have hstop : rest.takeWhile (fun d => !isDelimiter d) = [] ∧
      rest.dropWhile (fun d => !isDelimiter d) = rest := by
    cases rest with
    | nil => exact ⟨rfl, rfl⟩
    | cons d rest =>
      have hd : isDelimiter d = true := hrest d rfl
      simp [hd]
  have htake : (cs ++ rest).takeWhile (fun d => !isDelimiter d) = cs := by
    rw [List.takeWhile_append_of_pos hcs, hstop.1, List.append_nil]
  have hdrop : (cs ++ rest).dropWhile (fun d => !isDelimiter d) = rest := by
    rw [List.dropWhile_append_of_pos hcs, hstop.2]
  rw [List.cons_append, next_of_solid (solid_cons hc.1.1 fun h => absurd h hslash), if_neg hquote]
  simp only [hc.2, word, htake, hdrop, hkind]

theorem next_symbol {s : Symbol} {rest : List Char} (line : Nat)
    (hrest : (TokenKind.symbol s).EndsBefore rest) :
    next ⟨s.char :: rest, line⟩ = (.ok ⟨.symbol s, line⟩, ⟨rest, line⟩) := by
  have hblank : isBlank s.char = false := by cases s <;> decide
  have hquote : s.char ≠ '"' := by cases s <;> decide
  have hslash : s.char = '/' → ∀ d ∈ rest.head?, d ≠ '/' ∧ d ≠ '*' := by
    intro h
    obtain rfl : s = .slash := by
      have hs := Symbol.ofChar?_char s
      rw [h] at hs
      exact (Option.some.inj hs).symm
    exact hrest
  rw [next_of_solid (solid_cons hblank hslash), if_neg hquote, Symbol.ofChar?_char]

theorem next_string {characters : List Char} (rest : List Char) (line : Nat)
    (h : characters.all isStringChar = true) :
    next ⟨'"' :: (characters ++ '"' :: rest), line⟩ =
      (.ok ⟨.string (String.ofList characters), line⟩, ⟨rest, line⟩) := by
  have hall := List.all_eq_true.mp h
  have htake : (characters ++ '"' :: rest).takeWhile isStringChar = characters := by
    rw [List.takeWhile_append_of_pos hall]
    exact List.append_nil characters
  have hdrop : (characters ++ '"' :: rest).dropWhile isStringChar = '"' :: rest := by
    rw [List.dropWhile_append_of_pos hall]
    rfl
  rw [next_of_solid (solid_cons (by decide) fun h => absurd h (by decide)), if_pos rfl]
  simp only [if_true, string, hdrop, htake]

/-- The spelling of a well-formed token is read as this token, before a text that lets it end. -/
theorem next_spelling {k : TokenKind} {rest : List Char} (hk : k.WellFormed)
    (hrest : k.EndsBefore rest) (line : Nat) :
    next ⟨k.spelling ++ rest, line⟩ = (.ok ⟨k, line⟩, ⟨rest, line⟩) := by
  cases k with
  | keyword k =>
    have htext : k.text.toList ≠ [] := by cases k <;> decide
    have hname : k.text.toList.all isNameChar = true := by cases k <;> decide
    have hkind : wordKind k.text.toList = .ok (.keyword k) := by
      unfold wordKind
      simp only [String.ofList_toList, Keyword.ofText?_text]
    exact next_word htext hname hkind hrest
  | symbol s =>
    rw [TokenKind.spelling_symbol]
    exact next_symbol line hrest
  | integer value digits =>
    obtain ⟨htext, hdigits, rfl, hvalue⟩ := hk
    have hkind := wordKind_digits htext hdigits hvalue
    rw [String.ofList_toList] at hkind
    exact next_word htext (isNameChar_of_isDigit hdigits) hkind hrest
  | string characters =>
    have hnext := next_string rest line hk
    rw [String.ofList_toList] at hnext
    rw [← hnext, TokenKind.spelling, List.cons_append, List.append_assoc, List.singleton_append]
  | identifier name =>
    obtain ⟨hkeyword, htext, hfirst, hname⟩ := hk
    exact next_word htext hname (wordKind_name hkeyword hfirst hname) hrest
  | eof => exact hk.elim

theorem isEnd_of_wellFormed {k : TokenKind} (hk : k.WellFormed) (line : Nat) :
    isEnd (.ok ⟨k, line⟩) = false := by
  cases k with
  | eof => exact hk.elim
  | _ => rfl

/-! ## What was read -/

theorem spelling_of_string {cs : List Char} {line : Nat} {token : Token} {after : Cursor}
    (h : string cs line = (.ok token, after)) :
    '"' :: cs = token.kind.spelling ++ after.rest ∧ token.kind.EndsBefore after.rest ∧
      token.line = line ∧ after.line = line := by
  have hsplit := List.takeWhile_append_dropWhile (p := isStringChar) (l := cs)
  unfold string at h
  split at h
  · cases h
  · rename_i c rest hdrop
    split_ifs at h with hquote
    · cases h
      rw [hdrop, hquote] at hsplit
      refine ⟨?_, trivial, rfl, rfl⟩
      simp [TokenKind.spelling, hsplit]
    · cases h
    · cases h

theorem spelling_of_word {c : Char} {cs : List Char} {line : Nat} {token : Token} {after : Cursor}
    (h : word c cs line = (.ok token, after)) :
    c :: cs = token.kind.spelling ++ after.rest ∧ token.kind.EndsBefore after.rest ∧
      token.line = line ∧ after.line = line := by
  have hsplit := List.takeWhile_append_dropWhile (p := fun d => !isDelimiter d) (l := cs)
  unfold word at h
  cases hword : wordKind (c :: cs.takeWhile fun d => !isDelimiter d) with
  | error fault => simp [hword] at h
  | ok kind =>
    simp only [hword] at h
    cases h
    obtain ⟨hspelling, hends⟩ := spelling_of_wordKind hword
    refine ⟨?_, hends ?_, rfl, rfl⟩
    · rw [hspelling, List.cons_append, hsplit]
    · intro d hd
      have := List.head?_dropWhile_not (fun d => !isDelimiter d) cs
      rw [hd] at this
      simpa using this

/-- A token was spelled after a gap, and the cursor stands right after it. -/
theorem exists_spelling_of_next {cursor after : Cursor} {token : Token}
    (h : cursor.next = (.ok token, after)) (hend : token.isEof = false) :
    ∃ gap, cursor.rest = gap ++ (token.kind.spelling ++ after.rest) ∧
      GapBefore (token.kind.spelling ++ after.rest) gap ∧ token.kind.EndsBefore after.rest ∧
      token.line = cursor.line + gap.count '\n' ∧ after.line = token.line := by
  unfold next at h
  split at h
  · cases h
  · cases h
    cases hend
  · rename_i c cs line hskip
    obtain ⟨gap, hrest, hgap, rfl⟩ := exists_gap_of_skipGap hskip
    have hsolid : Solid (c :: cs) := solid_of_skipGap hskip
    have hread : c :: cs = token.kind.spelling ++ after.rest ∧ token.kind.EndsBefore after.rest ∧
        token.line = cursor.line + gap.count '\n' ∧
        after.line = cursor.line + gap.count '\n' := by
      split at h
      · rename_i hquote
        obtain rfl := hquote
        exact spelling_of_string h
      · split at h
        · rename_i s hs
          cases h
          obtain rfl := Symbol.char_of_ofChar? hs
          refine ⟨by rw [TokenKind.spelling_symbol]; rfl, ?_, rfl, rfl⟩
          cases s with
          | slash => exact (hsolid _ _ rfl).2 rfl
          | _ => trivial
        · exact spelling_of_word h
    obtain ⟨hspelled, hends, hline, hafter⟩ := hread
    simp only at hrest hgap
    rw [hspelled] at hrest hgap
    exact ⟨gap, hrest, hgap, hends, hline, hafter.trans hline.symm⟩

/-- Before the end of the input there is only a gap. -/
theorem gap_of_next_eof {cursor after : Cursor} {line : Nat}
    (h : cursor.next = (.ok ⟨.eof, line⟩, after)) : GapBefore [] cursor.rest := by
  unfold next at h
  split at h
  · cases h
  · rename_i line' hskip
    obtain ⟨gap, hrest, hgap, -⟩ := exists_gap_of_skipGap hskip
    rw [hrest, List.append_nil]
    exact hgap
  · rename_i c cs line' hskip
    -- no token is the end of the input
    exfalso
    split at h
    · exact wellFormed_of_string (congrArg Prod.fst h)
    · split at h
      · cases h
      · unfold word at h
        cases hword : wordKind (c :: cs.takeWhile fun d => !isDelimiter d) with
        | error fault => simp [hword] at h
        | ok kind =>
          simp only [hword] at h
          cases h
          exact wellFormed_of_wordKind (List.cons_ne_nil _ _) hword

end Cursor

/-! ## Names -/

/-- A letter that starts no keyword, followed by a number, is a name. -/
theorem wellFormed_numbered (i : Nat) : (TokenKind.identifier ("x" ++ toString i)).WellFormed := by
  have hlist : ("x" ++ toString i).toList = 'x' :: Nat.toDigits 10 i := by
    rw [String.toList_append]
    exact congrArg ('x' :: ·) Nat.toList_repr
  have hdigits : (Nat.toDigits 10 i).all Char.isDigit = true := List.all_eq_true.mpr fun c hc =>
    Nat.isDigit_of_mem_toDigits (by decide) (by decide) hc
  have hkeyword : Keyword.ofText? ("x" ++ toString i) = none := by
    cases hk : Keyword.ofText? ("x" ++ toString i) with
    | none => rfl
    | some k =>
      have hhead : k.text.toList.head? = some 'x' := by
        rw [Keyword.text_of_ofText? hk, hlist]
        rfl
      cases k <;> revert hhead <;> decide
  refine ⟨hkeyword, ?_, ?_, ?_⟩
  · rw [hlist]
    exact List.cons_ne_nil _ _
  · rw [hlist]
    rfl
  · rw [hlist, List.all_cons, Cursor.isNameChar_of_isDigit hdigits]
    rfl

/-- There is always another name. -/
theorem exists_fresh (names : List String) :
    ∃ name, (TokenKind.identifier name).WellFormed ∧ name ∉ names := by
  have hinjective : Function.Injective fun i : Nat => "x" ++ toString i := by
    intro i j h
    have hlists := congrArg String.toList h
    simp only [String.toList_append] at hlists
    exact Nat.repr_inj.mp (String.toList_inj.mp (List.append_cancel_left hlists))
  obtain ⟨name, ⟨i, rfl⟩, hname⟩ :=
    (Set.infinite_range_of_injective hinjective).exists_notMem_finset names.toFinset
  exact ⟨_, wellFormed_numbered i, by simpa using hname⟩

end Jack
