import Jack.Proofs.Pass.Walk

/-!
# Texts that are scanned without a problem

`Scans source ks` says that scanning a text meets no problem and finds the tokens `ks` before the
end of the input.

1. The end of the input is the last answer of a scan, and no other answer (`exists_answers`).
2. A text scans to given tokens exactly when its stream reads them up to the end of the input
   (`scans_iff`).
3. The tokens of a text are well-formed (`Scans.wellFormed`): constants have their bounds, and a
   name is no keyword (`Scans.ofText?_eq_none`). So are those read before a problem is met
   (`Reads.wellFormed`), and the problem is a lexical one (`Reads.lexical`).
-/

namespace Jack

open TokenStream (Reads reads_nil reads_cons)

namespace Cursor

theorem isEnd_eq_true_iff {answer : Scanned} :
    isEnd answer = true ↔ ∃ line, answer = .ok ⟨.eof, line⟩ := by
  cases answer with
  | error problem => simp [isEnd]
  | ok token =>
    obtain ⟨kind, line⟩ := token
    simp [isEnd, Token.isEof, TokenKind.isEof_iff]

/-- The last answer is the end of the input, and no other one is. -/
theorem exists_answers (cursor : Cursor) : ∃ (before : List Scanned) (line : Nat),
    cursor.answers = before ++ [.ok ⟨.eof, line⟩] ∧ ∀ answer ∈ before, isEnd answer = false := by
  induction hn : cursor.rest.length using Nat.strongRecOn generalizing cursor with
  | ind n ih =>
    rw [answers_eq]
    cases hend : isEnd cursor.next.1 with
    | true =>
      obtain ⟨line, hline⟩ := isEnd_eq_true_iff.mp hend
      exact ⟨[], line, by simp [hline], by simp⟩
    | false =>
      have hlt := length_rest_next_lt cursor hend
      obtain ⟨before, line, hbefore, hall⟩ := ih _ (hn ▸ hlt) cursor.next.2 rfl
      refine ⟨cursor.next.1 :: before, line, by simp [hbefore], ?_⟩
      intro answer hanswer
      obtain rfl | hanswer := List.mem_cons.mp hanswer
      · exact hend
      · exact hall answer hanswer

/-- Every answer is that of one step, from some place in the text. -/
theorem exists_next_of_mem_answers {cursor : Cursor} {answer : Scanned}
    (h : answer ∈ cursor.answers) : ∃ cursor' : Cursor, cursor'.next.1 = answer := by
  induction hn : cursor.rest.length using Nat.strongRecOn generalizing cursor with
  | ind n ih =>
    rw [answers_eq] at h
    obtain hnext | hlater := List.mem_cons.mp h
    · exact ⟨cursor, hnext.symm⟩
    · cases hend : isEnd cursor.next.1 with
      | true => simp [hend] at hlater
      | false =>
        simp only [hend, Bool.false_eq_true, if_false] at hlater
        exact ih _ (hn ▸ length_rest_next_lt cursor hend) hlater rfl

end Cursor

/-! ## Well-formed tokens -/

/-- What holds of the tokens of a text: a number is written in digits that give its value, which is
no larger than constants may be; a string holds only characters that may stand in one; a name is
made of the characters of names, does not start with a digit and is no keyword. -/
def TokenKind.WellFormed : TokenKind → Prop
  | .keyword _ | .symbol _ => True
  | .integer value digits =>
    digits.toList ≠ [] ∧ digits.toList.all Char.isDigit = true ∧
      Cursor.decimalValue digits.toList = value ∧ value ≤ maxConstant
  | .string characters => characters.toList.all Cursor.isStringChar = true
  | .identifier name =>
    Keyword.ofText? name = none ∧ name.toList ≠ [] ∧
      name.toList.head?.any Char.isDigit = false ∧ name.toList.all Cursor.isNameChar = true
  | .eof => False

@[simp] theorem TokenKind.wellFormed_keyword (w : Keyword) : (keyword w).WellFormed := trivial

@[simp] theorem TokenKind.wellFormed_symbol (y : Symbol) : (symbol y).WellFormed := trivial

instance : DecidablePred TokenKind.WellFormed
  | .keyword _ | .symbol _ => isTrue trivial
  | .integer _ _ | .identifier _ => inferInstanceAs (Decidable (_ ∧ _ ∧ _ ∧ _))
  | .string _ => inferInstanceAs (Decidable (_ = _))
  | .eof => isFalse id

namespace Cursor

theorem wellFormed_of_wordKind {word : List Char} {kind : TokenKind} (hword : word ≠ [])
    (h : wordKind word = .ok kind) : kind.WellFormed := by
  unfold wordKind at h
  cases hk : Keyword.ofText? (String.ofList word) with
  | some k =>
    simp only [hk] at h
    obtain rfl := Except.ok.inj h
    trivial
  | none =>
    simp only [hk] at h
    split_ifs at h with hdigit hdigits hvalue hname
    · obtain rfl := Except.ok.inj h
      simp only [TokenKind.WellFormed, String.toList_ofList]
      exact ⟨hword, hdigits, trivial, hvalue⟩
    · obtain rfl := Except.ok.inj h
      simp only [TokenKind.WellFormed, String.toList_ofList]
      exact ⟨hk, hword, Bool.eq_false_iff.mpr hdigit, hname⟩

theorem wellFormed_of_string {cs : List Char} {line : Nat} {token : Token}
    (h : (string cs line).1 = .ok token) : token.kind.WellFormed := by
  unfold string at h
  split at h
  · cases h
  · split_ifs at h
    obtain rfl := Except.ok.inj h
    simp only [TokenKind.WellFormed, String.toList_ofList]
    exact List.all_takeWhile

/-- Every token but the end of the input is well-formed. -/
theorem wellFormed_of_next {cursor : Cursor} {token : Token} (h : cursor.next.1 = .ok token)
    (hend : token.isEof = false) : token.kind.WellFormed := by
  unfold next at h
  split at h
  · cases h
  · obtain rfl := Except.ok.inj h
    cases hend
  · rename_i c cs start _
    split at h
    · exact wellFormed_of_string h
    · split at h
      · obtain rfl := Except.ok.inj h
        trivial
      · unfold word at h
        cases hword : wordKind (c :: cs.takeWhile fun d => !isDelimiter d) with
        | error fault => simp [hword] at h
        | ok kind =>
          simp only [hword, Except.ok.injEq] at h
          obtain rfl := h
          exact wellFormed_of_wordKind (List.cons_ne_nil _ _) hword

theorem wellFormed_of_mem_answers {cursor : Cursor} {token : Token}
    (h : .ok token ∈ cursor.answers) (htoken : token.isEof = false) :
    token.kind.WellFormed := by
  obtain ⟨cursor', hnext⟩ := exists_next_of_mem_answers h
  exact wellFormed_of_next hnext htoken

end Cursor

/-! ## Problems -/

namespace Cursor

theorem lexical_of_wordKind {word : List Char} {fault : Fault} (h : wordKind word = .error fault) :
    fault.category = .lexical := by
  unfold wordKind at h
  cases hk : Keyword.ofText? (String.ofList word) with
  | some k => simp [hk] at h
  | none =>
    simp only [hk] at h
    split_ifs at h <;> exact Except.error.inj h ▸ rfl

theorem lexical_of_string {cs : List Char} {line : Nat} {e : Problem}
    (h : (string cs line).1 = .error e) : e.fault.category = .lexical := by
  unfold string at h
  split at h
  · exact Except.error.inj h ▸ rfl
  · split_ifs at h <;> exact Except.error.inj h ▸ rfl

/-- What stops the reading of a token is a lexical fault. -/
theorem lexical_of_next {cursor : Cursor} {e : Problem} (h : cursor.next.1 = .error e) :
    e.fault.category = .lexical := by
  unfold next at h
  split at h
  · exact Except.error.inj h ▸ rfl
  · cases h
  · rename_i c cs line _
    split at h
    · exact lexical_of_string h
    · split at h
      · cases h
      · unfold word at h
        cases hword : wordKind (c :: cs.takeWhile fun d => !isDelimiter d) with
        | ok kind => simp [hword] at h
        | error fault =>
          simp only [hword, Except.error.injEq] at h
          exact h ▸ lexical_of_wordKind hword

theorem lexical_of_mem_answers {cursor : Cursor} {e : Problem} (h : .error e ∈ cursor.answers) :
    e.fault.category = .lexical := by
  obtain ⟨cursor', hnext⟩ := exists_next_of_mem_answers h
  exact lexical_of_next hnext

end Cursor

/-! ## Whole texts -/

/-- The text is scanned to its end without a problem, and these are its tokens. -/
def Scans (source : String) (ks : List TokenKind) : Prop :=
  ∃ (tokens : List Token) (line : Nat),
    scan source = tokens.map .ok ++ [.ok ⟨.eof, line⟩] ∧ tokens.map Token.kind = ks

/-- The tokens of a text that stands on one line. -/
theorem scans_of_line {source : String} {ks : List TokenKind} (line : Nat)
    (h : scan source = (ks.map fun k => .ok ⟨k, line⟩) ++ [.ok ⟨.eof, line⟩]) :
    Scans source ks := by
  refine ⟨ks.map fun k => ⟨k, line⟩, line, ?_, ?_⟩
  · rw [h, List.map_map]
    rfl
  · rw [List.map_map]
    exact List.map_id ks

/-- The tokens of a text are well-formed. -/
theorem Scans.wellFormed {source : String} {ks : List TokenKind} (h : Scans source ks)
    {k : TokenKind} (hk : k ∈ ks) : k.WellFormed := by
  obtain ⟨tokens, line, hscan, rfl⟩ := h
  obtain ⟨token, htoken, rfl⟩ := List.mem_map.mp hk
  obtain ⟨before, line', hbefore, hall⟩ := (Cursor.start source).exists_answers
  rw [← scan, hscan] at hbefore
  obtain ⟨rfl, -⟩ := List.append_inj' hbefore rfl
  have hmem : .ok token ∈ scan source := by
    rw [hscan]
    exact List.mem_append_left _ (List.mem_map_of_mem htoken)
  exact Cursor.wellFormed_of_mem_answers hmem (hall _ (List.mem_map_of_mem htoken))

theorem Scans.ofText?_eq_none {source : String} {ks : List TokenKind} {name : String}
    (h : Scans source ks) (hname : .identifier name ∈ ks) : Keyword.ofText? name = none :=
  (h.wellFormed hname).1

/-- The tokens of a text are determined by it. -/
theorem Scans.unique {source : String} {ks ls : List TokenKind} (h : Scans source ks)
    (h' : Scans source ls) : ks = ls := by
  obtain ⟨tokens, line, hscan, rfl⟩ := h
  obtain ⟨tokens', line', hscan', rfl⟩ := h'
  obtain ⟨htokens, -⟩ := List.append_inj' (hscan.symm.trans hscan') rfl
  rw [List.map_injective_iff.mpr (fun _ _ => Except.ok.inj) htokens]

namespace TokenStream

/-- What scanning answers from the current token on. -/
def answers (a : TokenStream) : List Scanned := .ok a.current :: a.pending

theorem answers_ofSource {source : String} {a : TokenStream} (h : ofSource source = .ok a) :
    a.answers = scan source := by
  unfold ofSource at h
  rw [scan, Cursor.answers_eq] at h ⊢
  cases hnext : (Cursor.start source).next.1 with
  | ok token =>
    rw [hnext] at h
    obtain rfl := Except.ok.inj h
    rfl
  | error problem =>
    rw [hnext] at h
    cases h

theorem lexical_of_ofSource {source : String} {e : Problem} (h : ofSource source = .error e) :
    e.fault.category = .lexical := by
  unfold ofSource at h
  cases hscan : scan source with
  | nil => simp [hscan, ofAnswers] at h
  | cons answer rest =>
    cases answer with
    | ok token => simp [hscan, ofAnswers] at h
    | error problem =>
      simp only [hscan, ofAnswers, Except.error.injEq] at h
      refine Cursor.lexical_of_mem_answers (?_ : .error e ∈ scan source)
      simp [hscan, h]

end TokenStream

/-- A stream whose tokens are all there reads them up to the end of the input. -/
theorem reads_of_tokens (tokens : List Token) (line : Nat)
    (htokens : ∀ t ∈ tokens, t.isEof = false) :
    ∃ a, TokenStream.ofAnswers (tokens.map .ok ++ [.ok ⟨.eof, line⟩]) = .ok a ∧
      a.Reads (tokens.map Token.kind) ⟨⟨.eof, line⟩, []⟩ := by
  induction tokens with
  | nil => exact ⟨_, rfl, rfl⟩
  | cons t rest ih =>
    obtain ⟨a, ha, hreads⟩ := ih fun t' ht' => htokens t' (List.mem_cons_of_mem _ ht')
    refine ⟨⟨t, rest.map .ok ++ [.ok ⟨.eof, line⟩]⟩, rfl, ?_⟩
    have ht := htokens t (List.mem_cons_self ..)
    have hadvance : TokenStream.advance ⟨t, rest.map .ok ++ [.ok ⟨.eof, line⟩]⟩ = (none, a) := by
      unfold TokenStream.advance
      rw [if_neg (by simp [ht])]
      cases rest with
      | nil => rw [← Except.ok.inj ha]; rfl
      | cons t' rest => rw [← Except.ok.inj ha]; rfl
    rw [List.map_cons, reads_cons, hadvance]
    refine ⟨rfl, ?_, rfl, hreads⟩
    intro heof
    rw [← TokenKind.isEof_iff] at heof
    exact absurd ht (by simp [Token.isEof, heof])

/-- What a stream reads up to the end of the input are all its tokens. -/
theorem tokens_of_reads {ks : List TokenKind} : ∀ {a b : TokenStream} {before : List Scanned}
    {line : Nat}, a.Reads ks b → b.current.kind = .eof →
    a.answers = before ++ [.ok ⟨.eof, line⟩] →
    (∀ answer ∈ before, Cursor.isEnd answer = false) →
    ∃ tokens : List Token, before = tokens.map .ok ∧ tokens.map Token.kind = ks := by
  induction ks with
  | nil =>
    intro a b before line h hb hshape hbefore
    rw [reads_nil] at h
    subst h
    cases before with
    | nil => exact ⟨[], rfl, rfl⟩
    | cons answer before =>
      have hend : Cursor.isEnd answer = true := by
        rw [← (List.cons.inj hshape).1]
        exact TokenKind.isEof_iff.mpr hb
      simp [hbefore answer (List.mem_cons_self ..)] at hend
  | cons k ks ih =>
    intro a b before line h hb hshape hbefore
    obtain ⟨hk, hne, hadvance, hrest⟩ := reads_cons.mp h
    obtain ⟨current, pending⟩ := a
    have hcurrent : current.isEof = false := by
      rw [← Bool.not_eq_true, Token.isEof, TokenKind.isEof_iff, hk]
      exact hne
    cases before with
    | nil =>
      have heof : current = ⟨.eof, line⟩ := Except.ok.inj (List.cons.inj hshape).1
      rw [heof] at hcurrent
      simp [Token.isEof, TokenKind.isEof] at hcurrent
    | cons answer before =>
      obtain ⟨rfl, hpending⟩ := List.cons.inj hshape
      have hlater : ∀ answer ∈ before, Cursor.isEnd answer = false :=
        fun answer hanswer => hbefore answer (List.mem_cons_of_mem _ hanswer)
      simp only [TokenStream.advance, hcurrent, Bool.false_eq_true, if_false] at hadvance hrest
      cases pending with
      | nil => simp at hpending
      | cons next pending =>
        cases next with
        | error problem => simp at hadvance
        | ok next =>
          obtain ⟨tokens, rfl, rfl⟩ := ih hrest hb hpending hlater
          exact ⟨current :: tokens, rfl, by rw [List.map_cons, hk]⟩

/-- **Scanning.** A text scans to given tokens exactly when its stream reads them up to the end of
the input. -/
theorem scans_iff {source : String} {ks : List TokenKind} :
    Scans source ks ↔ ∃ a b, TokenStream.ofSource source = .ok a ∧ a.Reads ks b ∧
      b.current.kind = .eof := by
  obtain ⟨before, line, hscan, hbefore⟩ := (Cursor.start source).exists_answers
  constructor
  · rintro ⟨tokens, line', htokens, rfl⟩
    rw [scan, hscan] at htokens
    obtain ⟨rfl, -⟩ := List.append_inj' htokens rfl
    have hall : ∀ t ∈ tokens, t.isEof = false := fun t ht => hbefore _ (List.mem_map_of_mem ht)
    obtain ⟨a, ha, hreads⟩ := reads_of_tokens tokens line hall
    refine ⟨a, _, ?_, hreads, rfl⟩
    rw [TokenStream.ofSource, scan, hscan, ← ha]
  · rintro ⟨a, b, ha, hreads, hb⟩
    have hshape : a.answers = before ++ [.ok ⟨.eof, line⟩] := by
      rw [TokenStream.answers_ofSource ha, scan, hscan]
    obtain ⟨tokens, rfl, hks⟩ := tokens_of_reads hreads hb hshape hbefore
    exact ⟨tokens, line, hscan, hks⟩

/-! ## Parts of a text -/

namespace TokenStream

/-- Going on finds what was answered before, or the end of the input. -/
theorem mem_answers_of_advance {a : TokenStream} {answer : Scanned} (h : a.advance.1 = none)
    (hanswer : answer ∈ a.advance.2.answers) :
    answer ∈ a.answers ∨ Cursor.isEnd answer = true := by
  unfold advance at h hanswer
  split at h
  · rename_i heof
    rw [if_pos heof] at hanswer
    exact .inl hanswer
  · rename_i heof
    rw [if_neg heof] at hanswer
    cases hp : a.pending with
    | nil =>
      simp only [hp, answers, List.mem_singleton] at hanswer
      subst hanswer
      exact .inr rfl
    | cons next rest =>
      cases next with
      | ok token =>
        simp only [hp, answers, List.mem_cons] at hanswer ⊢
        exact .inl (.inr hanswer)
      | error problem => simp [hp] at h

theorem Reads.mem_answers {ks : List TokenKind} : ∀ {a b : TokenStream}, a.Reads ks b →
    ∀ answer ∈ b.answers, answer ∈ a.answers ∨ Cursor.isEnd answer = true := by
  induction ks with
  | nil =>
    rintro a b rfl answer hanswer
    exact .inl hanswer
  | cons k ks ih =>
    rintro a b ⟨-, -, hadvance, hrest⟩ answer hanswer
    obtain hmem | hend := ih hrest answer hanswer
    · exact mem_answers_of_advance hadvance hmem
    · exact .inr hend

variable {source : String} {a b : TokenStream} {ks : List TokenKind}

/-- The tokens that the stream of a text reads are well-formed. -/
theorem Reads.wellFormed (ha : ofSource source = .ok a) (h : a.Reads ks b) :
    ∀ k ∈ ks, k.WellFormed := by
  intro k hk
  obtain ⟨before, after, rfl⟩ := List.append_of_mem hk
  obtain ⟨c, hc, hrest⟩ := reads_append.mp h
  obtain ⟨hcurrent, hne, -⟩ := hrest
  have hend : c.current.isEof = false := by
    rw [← Bool.not_eq_true, Token.isEof, TokenKind.isEof_iff, hcurrent]
    exact hne
  obtain hmem | hend' := hc.mem_answers (.ok c.current) (List.mem_cons_self ..)
  · rw [answers_ofSource ha] at hmem
    rw [← hcurrent]
    exact Cursor.wellFormed_of_mem_answers hmem hend
  · exact absurd hend' (by simp [Cursor.isEnd, hend])

/-- A problem that the stream of a text meets is a lexical one. -/
theorem Reads.lexical {e : Problem} (ha : ofSource source = .ok a) (h : a.Reads ks b)
    (hadvance : b.advance.1 = some e) : e.fault.category = .lexical := by
  have hpending : .error e ∈ b.answers := by
    unfold advance at hadvance
    split at hadvance
    · cases hadvance
    · cases hp : b.pending with
      | nil => simp [hp] at hadvance
      | cons next rest =>
        cases next with
        | ok token => simp [hp] at hadvance
        | error problem =>
          simp only [hp, Option.some.injEq] at hadvance
          simp [answers, hp, hadvance]
  obtain hmem | hend := h.mem_answers _ hpending
  · rw [answers_ofSource ha] at hmem
    exact Cursor.lexical_of_mem_answers hmem
  · cases hend

end TokenStream

end Jack
