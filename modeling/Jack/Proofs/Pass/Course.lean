import Jack.Proofs.Pass.Conduct
import Jack.Proofs.Token.Scans
import Jack.Run

/-!
# The course of a pass

`Pass.Plays` tells how a pass ends on a stream, where it stands then and which events it has brought
about. None of this depends on the device: one that takes notice of all the events is left as they
leave it, and one that fails at an event stops the pass there and then.

Every pass in lockstep has a course (`Lockstep.course`), and its companion takes the same one or is
cut short at a name that is declared again. About the course of a pass it is known

1. that the tokens taken are those that scanning answers one after the other (`Pass.Covers`): none
   is left out, the end of the input is never taken, and a problem of scanning stops the pass right
   after the last token in front of it;
2. that the pass complains about the token taken last or about the one ahead, if it is not stopped
   by a problem of scanning;
3. that the tokens taken are as required, and that the lines written are legible.

For passes that keep a journal, `Pass.Does` is the course with the tokens only.
-/

namespace Jack

/-! ## What is ahead -/

namespace TokenStream

variable {a b : TokenStream} {e : Problem} {last : Nat}

/-- What scanning answers from the current token on, up to the end of the input. -/
def ahead (a : TokenStream) : List Scanned :=
  if a.current.isEof then []
  else .ok a.current :: a.pending.takeWhile fun answer => !Cursor.isEnd answer

theorem ahead_of_ne_eof (ha : a.current.kind ≠ .eof) :
    a.ahead = .ok a.current :: a.pending.takeWhile fun answer => !Cursor.isEnd answer := by
  rw [ahead, if_neg]
  rwa [Token.isEof, TokenKind.isEof_iff]

theorem ahead_of_advance (ha : a.current.kind ≠ .eof) (h : a.advance = (none, b)) :
    a.ahead = .ok a.current :: b.ahead := by
  rw [ahead_of_ne_eof ha]
  rw [advance, if_neg (by rwa [Token.isEof, TokenKind.isEof_iff])] at h
  split at h
  · rename_i hpending
    cases h
    simp [hpending, ahead, Token.isEof, TokenKind.isEof]
  · rename_i token rest hpending
    cases h
    cases htoken : token.isEof <;>
      simp [hpending, ahead, Cursor.isEnd, htoken]
  · cases h

theorem ahead_of_problem (ha : a.current.kind ≠ .eof) (h : a.advance = (some e, b)) :
    ∃ rest, a.ahead = .ok a.current :: .error e :: rest := by
  rw [ahead_of_ne_eof ha]
  rw [advance, if_neg (by rwa [Token.isEof, TokenKind.isEof_iff])] at h
  split at h
  · cases h
  · cases h
  · rename_i problem rest hpending
    cases h
    rw [hpending, List.takeWhile_cons]
    exact ⟨_, rfl⟩

/-- What is ahead is as scanning answers it: the tokens are well-formed, the problems lexical. -/
structure Genuine (a : TokenStream) : Prop where
  wellFormed : ∀ t, .ok t ∈ a.ahead → t.kind.WellFormed
  lexical : ∀ e, .error e ∈ a.ahead → e.fault.category = .lexical

theorem Genuine.of_subset (h : a.Genuine) (hsub : b.ahead ⊆ a.ahead) : b.Genuine :=
  ⟨fun t ht => h.wellFormed t (hsub ht), fun e he => h.lexical e (hsub he)⟩

theorem Genuine.current (h : a.Genuine) : a.current.kind = .eof ∨ a.current.kind.WellFormed := by
  by_cases heof : a.current.kind = .eof
  · exact .inl heof
  · refine .inr (h.wellFormed _ ?_)
    rw [ahead_of_ne_eof heof]
    exact List.mem_cons_self ..

/-- What is ahead in a text is what scanning answers before the end of the input. -/
theorem mem_ahead {answer : Scanned} (h : answer ∈ a.ahead) :
    answer ∈ a.answers ∧ Cursor.isEnd answer = false := by
  rw [ahead] at h
  split at h
  · cases h
  rename_i heof
  obtain rfl | h := List.mem_cons.mp h
  · exact ⟨List.mem_cons_self .., by simpa [Cursor.isEnd] using heof⟩
  · exact ⟨List.mem_cons_of_mem _ ((List.takeWhile_sublist _).subset h),
      by simpa using List.all_eq_true.mp List.all_takeWhile _ h⟩

theorem genuine_ofSource {source : String} (h : ofSource source = .ok a) : a.Genuine := by
  have hscan : a.answers = (Cursor.start source).answers := answers_ofSource h
  constructor
  · intro t ht
    obtain ⟨hmem, hend⟩ := mem_ahead ht
    exact Cursor.wellFormed_of_mem_answers (hscan ▸ hmem) hend
  · intro e he
    exact Cursor.lexical_of_mem_answers (hscan ▸ (mem_ahead he).1)

/-- What is answered ahead ends with the end of the input, on the given line. -/
def EndsOn (last : Nat) (a : TokenStream) : Prop :=
  ∃ before, a.answers = before ++ [.ok ⟨.eof, last⟩] ∧
    ∀ answer ∈ before, Cursor.isEnd answer = false

theorem EndsOn.current_of_eof (h : a.EndsOn last) (ha : a.current.kind = .eof) :
    a.current = ⟨.eof, last⟩ := by
  obtain ⟨before, hanswers, hbefore⟩ := h
  cases before with
  | nil => exact Except.ok.inj (List.cons.inj hanswers).1
  | cons answer before =>
    obtain ⟨rfl, -⟩ := List.cons.inj hanswers
    have hend := hbefore _ List.mem_cons_self
    simp [Cursor.isEnd, Token.isEof, ha, TokenKind.isEof] at hend

/-- Going on leads to the same end. -/
theorem EndsOn.advance (h : a.EndsOn last) : a.advance.2.EndsOn last := by
  by_cases heof : a.current.isEof = true
  · rwa [advance_of_isEof heof]
  · obtain ⟨before, hanswers, hbefore⟩ := h
    rw [TokenStream.advance, if_neg heof]
    cases before with
    | nil =>
      have hcurrent : a.current = ⟨.eof, last⟩ := Except.ok.inj (List.cons.inj hanswers).1
      exact absurd (by rw [hcurrent]; rfl) heof
    | cons answer before =>
      obtain ⟨rfl, hpending⟩ := List.cons.inj hanswers
      rw [hpending]
      cases before with
      | nil => exact ⟨[], rfl, by simp⟩
      | cons answer before =>
        obtain ⟨hcurrent, hanswer, hrest⟩ := by simpa using hbefore
        cases answer with
        | ok t => exact ⟨.ok t :: before, rfl, by simpa using ⟨hanswer, hrest⟩⟩
        | error e => exact ⟨.ok a.current :: before, rfl, by simpa using ⟨hcurrent, hrest⟩⟩

end TokenStream

namespace Pass

section Binding

variable {α β ε σ : Type} {p : EStateM ε σ α} {f : α → EStateM ε σ β} {s s' : σ}

theorem bind_apply_ok {x : α} (h : p s = .ok x s') : (p >>= f) s = f x s' := by
  show EStateM.bind p f s = _
  unfold EStateM.bind
  rw [h]

theorem bind_apply_error {e : ε} (h : p s = .error e s') : (p >>= f) s = .error e s' := by
  show EStateM.bind p f s = _
  unfold EStateM.bind
  rw [h]

end Binding

variable {α β δ ε δ' ε' : Type} [Device δ ε] [Device δ' ε'] {a b m : TokenStream}
  {es es' : List Event}

/-! ## Events and devices -/

/-- Let a device handle events one after the other. -/
def handleAll : List Event → EStateM ε δ Unit
  | [] => return
  | event :: events => do
    Device.handle event
    handleAll events

theorem handleAll_append (es es' : List Event) :
    (handleAll (es ++ es') : EStateM ε δ Unit) = handleAll es >>= fun _ => handleAll es' := by
  induction es with
  | nil => simp [handleAll]
  | cons event es ih => simp [handleAll, ih]

/-- The end of a pass in the given state. -/
def conclude (r : Except Problem α) (s : State δ) : EStateM.Result ε (State δ) α :=
  match r with
  | .ok x => .ok x s
  | .error e => .error (Device.report s.device e) s

/-- Started on the one stream the pass ends as given, at the other stream, and has brought about the
given events. A device that fails at one of them stops the pass. -/
structure Plays (p : PassOn δ ε α) (a : TokenStream) (r : Except Problem α) (b : TokenStream)
    (es : List Event) : Prop where
  ok : ∀ {d d'}, handleAll es d = .ok () d' → p ⟨a, d⟩ = conclude r ⟨b, d'⟩
  error : ∀ {d e d'}, handleAll es d = .error e d' → ∃ m, p ⟨a, d⟩ = .error e ⟨m, d'⟩

section Plays

variable {p : PassOn δ ε α} {f : α → PassOn δ ε β}

theorem handleAll_append_ok {d d' : δ} (h : (handleAll es : EStateM ε δ Unit) d = .ok () d') :
    (handleAll (es ++ es') : EStateM ε δ Unit) d = handleAll es' d' := by
  rw [handleAll_append, bind_apply_ok h]

theorem handleAll_append_error {d d' : δ} {e : ε}
    (h : (handleAll es : EStateM ε δ Unit) d = .error e d') :
    (handleAll (es ++ es') : EStateM ε δ Unit) d = .error e d' := by
  rw [handleAll_append, bind_apply_error h]

theorem Plays.bind {x : α} {r : Except Problem β} (hp : Plays p a (.ok x) b es)
    (hf : Plays (f x) b r m es') : Plays (p >>= f) a r m (es ++ es') := by
  constructor
  · intro d d' h
    cases hd : (handleAll es : EStateM ε δ Unit) d with
    | ok u d₁ =>
      rw [handleAll_append_ok hd] at h
      rw [bind_apply_ok (hp.ok hd)]
      exact hf.ok h
    | error e d₁ =>
      rw [handleAll_append_error hd] at h
      cases h
  · intro d e d' h
    cases hd : (handleAll es : EStateM ε δ Unit) d with
    | ok u d₁ =>
      rw [handleAll_append_ok hd] at h
      rw [bind_apply_ok (hp.ok hd)]
      exact hf.error h
    | error e' d₁ =>
      rw [handleAll_append_error hd] at h
      cases h
      obtain ⟨m', hm'⟩ := hp.error hd
      exact ⟨m', bind_apply_error hm'⟩

theorem Plays.bind_error {e : Problem} (hp : Plays p a (.error e) b es) :
    Plays (p >>= f) a (.error e) b es := by
  constructor
  · intro d d' h
    exact bind_apply_error (hp.ok h)
  · intro d e' d' h
    obtain ⟨m, hm⟩ := hp.error h
    exact ⟨m, bind_apply_error hm⟩

/-- A pass that leaves the device alone. -/
theorem plays_of_quiet {r : Except Problem α} (h : ∀ d, p ⟨a, d⟩ = conclude r ⟨b, d⟩) :
    Plays p a r b [] := by
  constructor
  · rintro d _ ⟨⟩
    exact h d
  · rintro d e d' ⟨⟩

theorem plays_pure (x : α) : Plays (pure x : PassOn δ ε α) a (.ok x) a [] :=
  plays_of_quiet fun _ => rfl

theorem plays_current : Plays (current : PassOn δ ε Token) a (.ok a.current) a [] :=
  plays_of_quiet fun _ => rfl

theorem Plays.current_bind {f : Token → PassOn δ ε α} {r : Except Problem α}
    (h : Plays (f a.current) a r b es) : Plays (current >>= f) a r b es := plays_current.bind h

theorem plays_fail (line : Nat) (fault : Fault) :
    Plays (fail line fault : PassOn δ ε α) a (.error ⟨line, fault⟩) a [] :=
  plays_of_quiet fun _ => rfl

theorem plays_emit (event : Event) : Plays (emit event : PassOn δ ε Unit) a (.ok ()) a [event] := by
  have hone : ∀ d : δ, (handleAll [event] : EStateM ε δ Unit) d = Device.handle event d := by
    intro d
    cases hd : Device.handle event d with
    | ok _ d' => exact bind_apply_ok hd
    | error e d' => exact bind_apply_error hd
  constructor
  · intro d d' h
    rw [hone] at h
    simp only [emit, h]
    rfl
  · intro d e d' h
    rw [hone] at h
    exact ⟨a, by simp only [emit, h]⟩

theorem plays_note (n : Note) : Plays (note n : PassOn δ ε Unit) a (.ok ()) a [.note n] :=
  plays_emit _

theorem plays_writeLines (lines : List Line) :
    Plays (writeLines lines : PassOn δ ε Unit) a (.ok ()) a (lines.map .line) := by
  induction lines with
  | nil => exact plays_pure ()
  | cons l lines ih => exact (plays_emit (.line l)).bind ih

theorem plays_showTable (options : Options) (title : String) (table : Table) :
    Plays (showTable options title table : PassOn δ ε Unit) a (.ok ()) a
      (if options.annotate then (tableListing title table).map .line else []) := by
  unfold showTable
  split
  · exact plays_writeLines _
  · exact plays_pure ()

/-- Consuming a token succeeds unless the next one cannot be scanned. -/
theorem plays_next : Plays (next : PassOn δ ε Token) a
    (match a.advance.1 with
      | none => .ok a.current
      | some e => .error e) a.advance.2 [.token a.current] := by
  refine .current_bind ((plays_emit _).bind ?_)
  rcases hadvance : a.advance with ⟨_ | e, b⟩
  · have hmove : Plays (move : PassOn δ ε Unit) a (.ok ()) b [] :=
      plays_of_quiet fun d => by simp only [move, hadvance]; rfl
    exact hmove.bind (plays_pure _)
  · have hmove : Plays (move : PassOn δ ε Unit) a (.error e) b [] :=
      plays_of_quiet fun d => by simp only [move, hadvance]; rfl
    exact hmove.bind_error

end Plays

/-! ## The tokens taken -/

/-- The tokens that are taken in a row of events. -/
def tokensOf (es : List Event) : List Token := es.filterMap Event.token?

theorem tokensOf_append (es es' : List Event) :
    tokensOf (es ++ es') = tokensOf es ++ tokensOf es' := List.filterMap_append ..

theorem tokensOf_lines (lines : List Line) : tokensOf (lines.map .line) = [] := by
  rw [tokensOf, List.filterMap_map]
  exact List.filterMap_eq_nil_iff.mpr fun _ _ => rfl

theorem tokensOf_table (options : Options) (lines : List Line) :
    tokensOf (if options.annotate then lines.map .line else []) = [] := by
  split
  · exact tokensOf_lines lines
  · rfl

/-- The token taken last, given the one that was last before the events. -/
def lastTaken (last : Option Token) (es : List Event) : Option Token :=
  (tokensOf es).getLast?.or last

theorem lastTaken_append (last : Option Token) (es es' : List Event) :
    lastTaken last (es ++ es') = lastTaken (lastTaken last es) es' := by
  simp only [lastTaken, tokensOf_append, List.getLast?_append, Option.or_assoc]

/-- The fault is one that a pass finds by itself. Only a strict one objects to declarations. -/
def Finds (strict : Bool) (fault : Fault) : Prop :=
  fault.category ≠ .lexical ∧ (fault.category = .declaration → strict = true)

theorem Complaint.finds {strict : Bool} {last : Option Token} {ahead : Token} {e : Problem}
    (h : Complaint strict last ahead e) : Finds strict e.fault := by
  cases h with
  | redeclared _ hstrict => exact ⟨by simp [Fault.category], fun _ => hstrict⟩
  | unexpected | tooManyArguments | stringTooLong | unresolved => simp [Finds, Fault.category]

section Covers

variable {strict : Bool} {ts ts' : List Token}

/-- How the tokens taken stand in what was ahead. Either they lead from one stream to the other, and
a problem at the end is one that the pass has found, or a problem of scanning follows them. -/
inductive Covers (strict : Bool) (a : TokenStream) :
    Except Problem α → TokenStream → List Token → Prop
  | walked {r : Except Problem α} {b : TokenStream} {ts : List Token}
      (hahead : a.ahead = ts.map .ok ++ b.ahead)
      (hblame : ∀ e, r = .error e → Finds strict e.fault) : Covers strict a r b ts
  | stuck {e : Problem} {b : TokenStream} {ts : List Token} {rest : List Scanned}
      (hahead : a.ahead = ts.map .ok ++ .error e :: rest) : Covers strict a (.error e) b ts

/-- A pass that never objects to declarations does so under any options. -/
theorem Covers.mono {r : Except Problem α} {strict' : Bool} (h : Covers strict a r b ts)
    (hstrict : strict = true → strict' = true) : Covers strict' a r b ts := by
  cases h with
  | walked hahead hblame =>
    exact .walked hahead fun e he => ⟨(hblame e he).1, fun hd => hstrict ((hblame e he).2 hd)⟩
  | stuck hahead => exact .stuck hahead

theorem Covers.ahead_eq {x : α} (h : Covers strict a (.ok x) b ts) :
    a.ahead = ts.map .ok ++ b.ahead := by
  cases h with
  | walked hahead => exact hahead

theorem Covers.ahead_subset {x : α} (h : Covers strict a (.ok x) b ts) : b.ahead ⊆ a.ahead := by
  rw [h.ahead_eq]
  exact List.subset_append_right _ _

/-- With a problem at the end the sort of the result is of no account. -/
theorem Covers.error {e : Problem} (h : Covers strict a (.error e : Except Problem α) b ts) :
    Covers strict a (.error e : Except Problem β) b ts := by
  cases h with
  | walked hahead hblame => exact .walked hahead fun e' he' => by cases he'; exact hblame e rfl
  | stuck hahead => exact .stuck hahead

theorem Covers.trans {x : α} {r : Except Problem β} (h : Covers strict a (.ok x) b ts)
    (h' : Covers strict b r m ts') : Covers strict a r m (ts ++ ts') := by
  cases h' with
  | walked hahead hblame =>
    refine .walked ?_ hblame
    rw [h.ahead_eq, hahead, List.map_append, List.append_assoc]
  | stuck hahead =>
    exact .stuck (by rw [h.ahead_eq, hahead, List.map_append, List.append_assoc])

/-- A problem of scanning comes after at least one token. -/
theorem Covers.ne_nil {e : Problem} (h : Covers strict a (.error e : Except Problem α) b ts)
    (he : e.fault.category = .lexical) : ts ≠ [] := by
  cases h with
  | walked _ hblame => exact absurd he (hblame e rfl).1
  | stuck hahead =>
    rintro rfl
    rw [TokenStream.ahead] at hahead
    split at hahead <;> simp at hahead

/-- The token at hand is taken, and the next one may be one that cannot be scanned. -/
theorem covers_next (ha : a.current.kind ≠ .eof) :
    Covers strict a (match a.advance.1 with
      | none => .ok a.current
      | some e => .error e) a.advance.2 [a.current] := by
  rcases hadvance : a.advance with ⟨_ | e, b⟩
  · exact .walked (TokenStream.ahead_of_advance ha hadvance) (by simp)
  · obtain ⟨rest, hahead⟩ := TokenStream.ahead_of_problem ha hadvance
    exact .stuck hahead

end Covers

/-! ## Courses of passes in lockstep -/

/-- What is known about a course: how its tokens stand in what was ahead, what stopped it, and that
its events are as required. -/
structure Account (c : Contract δ ε δ' ε') (last : Option Token) (a : TokenStream)
    (r : Except Problem α) (b : TokenStream) (es : List Event) : Prop where
  covers : Covers c.left.strict a r b (tokensOf es)
  blame : ∀ e, r = .error e →
    Complaint c.left.strict (lastTaken last es) b.current e ∨ .error e ∈ a.ahead
  endsOn : ∀ line, a.EndsOn line → b.EndsOn line
  takes : ∀ t, .token t ∈ es → c.takes t.kind
  legible : c.genuine → ∀ l, .line l ∈ es → l.Legible
  finish : .finish ∈ es → c.ends

/-- The pass stops where a name is declared again, and the tokens given lead on from there. -/
def CutShort (q : PassOn δ ε α) (a : TokenStream) (r : Except Problem α) (b : TokenStream)
    (ts : List Token) : Prop :=
  ∃ line name m es ts', Plays q a (.error ⟨line, .redeclared name⟩) m es ∧
    Covers true a (.error ⟨line, .redeclared name⟩ : Except Problem α) m (tokensOf es) ∧
    ts = tokensOf es ++ ts' ∧ Covers false m r b ts'

/-- The second pass takes the course given, but for comments, or it is cut short, which takes the
stricter options. -/
def Follows (c : Contract δ ε δ' ε') (q : PassOn δ' ε' α) (a : TokenStream) (r : Except Problem α)
    (b : TokenStream) (es : List Event) : Prop :=
  (∃ es', Plays q a r b es' ∧ tokensOf es' = tokensOf es ∧
      (c.left.annotate = c.right.annotate → es' = es)) ∨
    (c.left.strict = false ∧ c.right.strict = true) ∧ CutShort q a r b (tokensOf es)

variable {c : Contract δ ε δ' ε'} {last : Option Token}

section Account

theorem Account.error {e : Problem} (h : Account c last a (.error e : Except Problem α) b es) :
    Account c last a (.error e : Except Problem β) b es where
  covers := h.covers.error
  blame := by
    rintro _ ⟨⟩
    exact h.blame e rfl
  endsOn := h.endsOn
  takes := h.takes
  legible := h.legible
  finish := h.finish

theorem Account.trans {x : α} {r : Except Problem β} (h : Account c last a (.ok x) b es)
    (h' : Account c (lastTaken last es) b r m es') : Account c last a r m (es ++ es') where
  covers := by
    rw [tokensOf_append]
    exact h.covers.trans h'.covers
  blame e he := by
    rw [lastTaken_append]
    exact (h'.blame e he).imp_right fun hmem => h.covers.ahead_subset hmem
  endsOn line hline := h'.endsOn line (h.endsOn line hline)
  takes t ht := (List.mem_append.mp ht).elim (h.takes t) (h'.takes t)
  legible hg l hl := (List.mem_append.mp hl).elim (h.legible hg l) (h'.legible hg l)
  finish hmem := (List.mem_append.mp hmem).elim h.finish h'.finish

/-- A step that takes no token. -/
theorem Account.still {r : Except Problem α} (htokens : tokensOf es = [])
    (hblame : ∀ e, r = .error e → Complaint c.left.strict last a.current e)
    (hlegible : c.genuine → ∀ l, .line l ∈ es → l.Legible) (hfinish : .finish ∈ es → c.ends) :
    Account c last a r a es where
  covers := by
    rw [htokens]
    exact .walked rfl fun e he => (hblame e he).finds
  blame e he := by
    rw [lastTaken, htokens]
    exact .inl (hblame e he)
  endsOn _ h := h
  takes t ht := by
    have hmem : t ∈ tokensOf es := List.mem_filterMap.mpr ⟨_, ht, rfl⟩
    rw [htokens] at hmem
    cases hmem
  legible := hlegible
  finish := hfinish

theorem account_next (ha : a.current.kind ≠ .eof) (htakes : c.takes a.current.kind) :
    Account c last a (match a.advance.1 with
      | none => .ok a.current
      | some e => .error e) a.advance.2 [.token a.current] where
  covers := covers_next ha
  blame e he := by
    rcases hadvance : a.advance with ⟨_ | e', b⟩
    · simp [hadvance] at he
    · obtain ⟨rest, hahead⟩ := TokenStream.ahead_of_problem ha hadvance
      obtain rfl : e' = e := by simpa [hadvance] using he
      exact .inr (by simp [hahead])
  endsOn _ h := h.advance
  takes t ht := by
    cases List.mem_singleton.mp ht
    exact htakes
  legible _ l hl := by simp at hl
  finish h := by simp at h

end Account

section Follows

variable {q : PassOn δ' ε' α} {f : α → PassOn δ' ε' β}

theorem Follows.same {r : Except Problem α} (h : Plays q a r b es) : Follows c q a r b es :=
  .inl ⟨es, h, rfl, fun _ => rfl⟩

theorem Follows.bind_error {e : Problem} (h : Follows c q a (.error e) b es) :
    Follows c (q >>= f) a (.error e) b es := by
  obtain ⟨es', hq, htokens, hes⟩ | ⟨hstrict, line, name, m, es', ts, hq, hcut, hts, hcovers⟩ := h
  · exact .inl ⟨es', hq.bind_error, htokens, hes⟩
  · exact .inr ⟨hstrict, line, name, m, es', ts, hq.bind_error, hcut.error, hts, hcovers.error⟩

/-- The second step of the first pass is followed, too, or the companion has been cut short
before. -/
theorem Follows.bind {x : α} {r : Except Problem β} (h : Follows c q a (.ok x) b es)
    (hcovers : Covers c.left.strict a (.ok x : Except Problem α) b (tokensOf es))
    (h' : Follows c (f x) b r m es') (hcovers' : Covers c.left.strict b r m (tokensOf es')) :
    Follows c (q >>= f) a r m (es ++ es') := by
  obtain ⟨es₁, hq, htokens, hes⟩ | ⟨hstrict, line, name, n, es₁, ts, hq, hcut, hts, hrest⟩ := h
  · obtain ⟨es₂, hf, htokens', hes'⟩ | ⟨hstrict, line, name, n, es₂, ts, hf, hcut, hts, hrest⟩ := h'
    · refine .inl ⟨es₁ ++ es₂, hq.bind hf, ?_, fun h => by rw [hes h, hes' h]⟩
      rw [tokensOf_append, tokensOf_append, htokens, htokens']
    · refine .inr ⟨hstrict, line, name, n, es₁ ++ es₂, ts, hq.bind hf, ?_, ?_, hrest⟩
      · rw [tokensOf_append, htokens]
        exact (hcovers.mono fun _ => rfl).trans hcut
      · rw [tokensOf_append, tokensOf_append, htokens, hts, List.append_assoc]
  · refine .inr ⟨hstrict, line, name, n, es₁, ts ++ tokensOf es', hq.bind_error, hcut.error, ?_, ?_⟩
    · rw [tokensOf_append, hts, List.append_assoc]
    · exact hrest.trans (hstrict.1 ▸ hcovers')

end Follows

/-- The first of two passes ends as given, with an account of its course and in a view as required.
The second one follows it. -/
structure Course (c : Contract δ ε δ' ε') (last : Option Token) (p : PassOn δ ε α)
    (p' : PassOn δ' ε' α) (Q : α → α → View c → Prop) (a : TokenStream) (r : Except Problem α)
    (b : TokenStream) (es : List Event) : Prop where
  plays : Plays p a r b es
  account : Account c last a r b es
  follows : Follows c p' a r b es
  ends : ∀ x, r = .ok x → ∃ w : View c, w.last = lastTaken last es ∧ w.last' = w.last ∧
    w.ahead = b.current ∧ Q x x w

/-- A step that takes no token and does not end the first pass. -/
theorem course_still {p : PassOn δ ε α} {p' : PassOn δ' ε' α} {Q : α → α → View c → Prop} {x : α}
    {v : View c} (hp : Plays p a (.ok x) a es) (hp' : Follows c p' a (.ok x) a es)
    (htokens : tokensOf es = []) (hlegible : c.genuine → ∀ l, .line l ∈ es → l.Legible)
    (hfinish : .finish ∈ es → c.ends) (hlast : v.last' = v.last) (ha : a.current = v.ahead)
    (hQ : Q x x v) : Course c v.last p p' Q a (.ok x) a es where
  plays := hp
  account := .still htokens (by simp) hlegible hfinish
  follows := hp'
  ends := by
    rintro _ ⟨⟩
    refine ⟨v, ?_, hlast, ha.symm, hQ⟩
    rw [lastTaken, htokens]
    rfl

/-- A token that both passes take. -/
theorem course_next {Q : Token → Token → View c → Prop} {v : View c} (hsame : c.same)
    (hne : v.ahead.kind ≠ .eof) (htakes : c.takes v.ahead.kind)
    (hQ : ∀ t t' (hlike : c.Like t t'),
      Q v.ahead v.ahead' ⟨some v.ahead, some v.ahead', t, t', hlike⟩)
    (ha : a.current = v.ahead) (hgenuine : c.genuine → a.Genuine) :
    ∃ r b es, Course c v.last next next Q a r b es := by
  refine ⟨_, _, _, plays_next, account_next (ha ▸ hne) (ha ▸ htakes), .same plays_next, ?_⟩
  intro t ht
  have hahead : v.ahead' = v.ahead := v.like.eq_of_same hsame
  rcases hadvance : a.advance with ⟨_ | e, b⟩
  · obtain rfl : a.current = t := by simpa [hadvance] using ht
    have hgenuine' : c.genuine → b.current.kind = .eof ∨ b.current.kind.WellFormed := by
      refine fun hg => ((hgenuine hg).of_subset ?_).current
      rw [TokenStream.ahead_of_advance (ha ▸ hne) hadvance]
      exact List.subset_cons_self _ _
    have hlike := c.like_refl hgenuine'
    refine ⟨⟨some v.ahead, some v.ahead', b.current, b.current, hlike⟩, ?_, ?_, rfl, ?_⟩
    · simp [lastTaken, tokensOf, Event.token?, ha]
    · simp [hahead]
    · have := hQ b.current b.current hlike
      rwa [hahead, ← ha] at this ⊢
  · simp [hadvance] at ht

/-- **The course of passes in lockstep.** On one and the same stream both passes have a course, and
they take the same one or the second is cut short. -/
theorem Lockstep.course {v : View c} {p : PassOn δ ε α} {p' : PassOn δ' ε' α}
    {Q : α → α → View c → Prop} (h : Lockstep c v p p' Q) (hsame : c.same) {a : TokenStream}
    (ha : a.current = v.ahead) (hlast : v.last' = v.last) (hgenuine : c.genuine → a.Genuine) :
    ∃ r b es, Course c v.last p p' Q a r b es := by
  induction h generalizing a with
  | pure hx hQ =>
    obtain rfl := hx hsame
    exact ⟨_, a, [], course_still (plays_pure _) (.same (plays_pure _)) rfl (by simp) (by simp)
      hlast ha hQ⟩
  | @bind _ _ v p p' f f' R Q _ _ ihp ihf =>
    obtain ⟨r, b, es, hcourse⟩ := ihp ha hlast hgenuine
    cases r with
    | error e =>
      exact ⟨.error e, b, es, hcourse.plays.bind_error, hcourse.account.error,
        hcourse.follows.bind_error, by simp⟩
    | ok x =>
      obtain ⟨w, hw, hw', hahead, hR⟩ := hcourse.ends x rfl
      have hgenuine' : c.genuine → b.Genuine := fun hg =>
        (hgenuine hg).of_subset hcourse.account.covers.ahead_subset
      obtain ⟨r, m, es', hcourse'⟩ := ihf x x w hR hahead.symm hw' hgenuine'
      rw [hw] at hcourse'
      refine ⟨r, m, es ++ es', hcourse.plays.bind hcourse'.plays,
        hcourse.account.trans hcourse'.account, hcourse.follows.bind hcourse.account.covers
          hcourse'.follows hcourse'.account.covers, fun y hy => ?_⟩
      rw [lastTaken_append]
      exact hcourse'.ends y hy
  | @current v Q hQ =>
    have hahead : v.ahead' = v.ahead := v.like.eq_of_same hsame
    rw [hahead, ← ha] at hQ
    exact ⟨_, a, [], course_still plays_current (.same plays_current) rfl (by simp) (by simp)
      hlast ha hQ⟩
  | next hne htakes hQ => exact course_next hsame hne htakes hQ ha hgenuine
  | @line v l Q hl hQ =>
    refine ⟨_, a, _, course_still (plays_emit _) (.same (plays_emit _)) rfl (fun hg l' hl' => ?_)
      (by simp) hlast ha hQ⟩
    obtain rfl : l' = l := by simpa using hl'
    exact hl hg
  | @note v n n' Q hn hQ =>
    obtain rfl := hn hsame
    exact ⟨_, a, _, course_still (plays_emit _) (.same (plays_emit _)) rfl (by simp) (by simp)
      hlast ha hQ⟩
  | @showTable v title table Q hl hQ =>
    -- the comments differ where only one of the passes makes them
    refine ⟨.ok (), a, _, course_still (plays_showTable _ _ _) (.inl ⟨_, plays_showTable _ _ _, ?_,
      fun h => by rw [h]⟩) (tokensOf_table _ _) ?_ ?_ hlast ha hQ⟩
    · rw [tokensOf_table, tokensOf_table]
    · intro hg l hmem
      split at hmem
      · obtain ⟨l', hl', hevent⟩ := List.mem_map.mp hmem
        cases hevent
        exact hl hg l hl'
      · cases hmem
    · split <;> simp
  | @fail _ v line line' fault fault' Q h h' hfault hline =>
    obtain ⟨rfl, rfl⟩ := hline hsame
    refine ⟨.error ⟨line', fault'⟩, a, [], plays_fail _ _, .still rfl ?_ (by simp) (by simp),
      .same (plays_fail _ _), by simp⟩
    rintro _ ⟨⟩
    exact ha ▸ h
  | @cut _ v n x line name Q hleft hright h' hQ =>
    refine ⟨.ok x, a, [.note n], course_still ((plays_note n).bind (plays_pure x))
      (.inr ⟨⟨hleft, hright⟩, line, name, a, [], [], plays_fail _ _, .walked rfl ?_, rfl,
        .walked rfl (by simp)⟩) rfl (by simp) (by simp) hlast ha hQ⟩
    rintro _ ⟨⟩
    exact h'.finds
  | @finish v Q hends heof hQ =>
    exact ⟨_, a, _, course_still (plays_emit _) (.same (plays_emit _)) rfl (by simp)
      (fun _ => hends) hlast ha hQ⟩

/-! ## Contracts of one stream -/

/-- A device that does not watch which functions are entered. -/
class Unwatched (δ : Type) {ε : outParam Type} [Device δ ε] : Prop where
  entering_eq : ∀ {α : Type} (site : Site) (bound : Nat) (p : PassOn δ ε α),
    entering site bound p = p

instance : Unwatched (Array Event) := ⟨fun _ _ _ => rfl⟩

instance {σ : Type} : Unwatched (Devices σ) := ⟨fun _ _ _ => rfl⟩

/-- Two passes over the same stream. -/
def Contract.over (δ ε δ' ε' : Type) [Device δ ε] [Device δ' ε'] [Unwatched δ] [Unwatched δ']
    (left right : Options) (hstrict : left.strict = true → right.strict = true)
    (takes : TokenKind → Prop) (genuine ends : Prop) : Contract δ ε δ' ε' where
  left := left
  right := right
  takes := takes
  same := True
  genuine := genuine
  ends := ends
  enters := True
  strict := hstrict
  unwatched _ := Unwatched.entering_eq
  unwatched' _ := Unwatched.entering_eq

/-- What two passes see when they start on a stream. -/
def View.start (a : TokenStream) (h : c.genuine → a.Genuine) : View c :=
  ⟨none, none, a.current, a.current, c.like_refl fun hg => (h hg).current⟩

/-- Passes that are in lockstep from the start have a course. -/
theorem exists_course (hsame : c.same) (hgenuine : c.genuine → a.Genuine) {p : PassOn δ ε α}
    {p' : PassOn δ' ε' α} {Q : α → α → View c → Prop}
    (h : Lockstep c (View.start a hgenuine) p p' Q) :
    ∃ r b es, Course c none p p' Q a r b es := h.course hsame rfl rfl hgenuine

/-! ## Journals -/

/-- The tokens taken so far. -/
def State.taken (s : State) : List Token := tokensOf s.device.toList

theorem handleAll_journal (es : List Event) (journal : Array Event) :
    (handleAll es : EStateM Problem (Array Event) Unit) journal = .ok () (journal ++ es) := by
  induction es generalizing journal with
  | nil => simp [handleAll, pure, EStateM.pure]
  | cons event es ih =>
    show handleAll es (journal.push event) = _
    rw [ih]
    simp

theorem Plays.journal {p : Pass α} {r : Except Problem α} (h : Plays p a r b es) :
    p ⟨a, #[]⟩ = conclude r ⟨b, es.toArray⟩ :=
  h.ok ((handleAll_journal es #[]).trans (by simp))

section Does

variable {strict : Bool} {ts ts' : List Token} {k : TokenKind}

/-- Started on the one stream the pass ends as given, at the other stream, and has taken the given
tokens. -/
structure Does (strict : Bool) (p : Pass α) (a : TokenStream) (r : Except Problem α)
    (b : TokenStream) (ts : List Token) : Prop where
  plays : ∃ es, Plays p a r b es ∧ tokensOf es = ts
  covers : Covers strict a r b ts

theorem Does.ends {p : Pass α} {r : Except Problem α} (h : Does strict p a r b ts) (s : State)
    (hs : s.tokens = a) :
    ∃ s', p s = conclude r s' ∧ s'.tokens = b ∧ s'.taken = s.taken ++ ts := by
  obtain ⟨es, hplays, rfl⟩ := h.plays
  obtain ⟨tokens, journal⟩ := s
  subst hs
  refine ⟨⟨b, journal ++ es⟩, hplays.ok (handleAll_journal es journal), rfl, ?_⟩
  simp [State.taken, tokensOf_append]

theorem Does.mono {p : Pass α} {r : Except Problem α} (h : Does false p a r b ts) :
    Does strict p a r b ts := ⟨h.plays, h.covers.mono (by simp)⟩

/-- A pass has one course only. -/
theorem Does.unique {strict' : Bool} {p : Pass α} {r r' : Except Problem α}
    (h : Does strict p a r b ts) (h' : Does strict' p a r' m ts') : r = r' ∧ b = m ∧ ts = ts' := by
  obtain ⟨s, hs, rfl, htaken⟩ := h.ends ⟨a, #[]⟩ rfl
  obtain ⟨s', hs', rfl, htaken'⟩ := h'.ends ⟨a, #[]⟩ rfl
  rw [hs] at hs'
  cases r <;> cases r' <;> cases hs' <;>
    exact ⟨rfl, rfl, List.append_cancel_left (htaken.symm.trans htaken')⟩

theorem Does.bind {p : Pass α} {f : α → Pass β} {x : α} {r : Except Problem β}
    (hp : Does strict p a (.ok x) b ts) (hf : Does strict (f x) b r m ts') :
    Does strict (p >>= f) a r m (ts ++ ts') := by
  obtain ⟨es, hplays, rfl⟩ := hp.plays
  obtain ⟨es', hplays', rfl⟩ := hf.plays
  exact ⟨⟨_, hplays.bind hplays', tokensOf_append es es'⟩, hp.covers.trans hf.covers⟩

theorem Does.bind_error {p : Pass α} {f : α → Pass β} {e : Problem}
    (hp : Does strict p a (.error e) b ts) : Does strict (p >>= f) a (.error e) b ts := by
  obtain ⟨es, hplays, htokens⟩ := hp.plays
  exact ⟨⟨es, hplays.bind_error, htokens⟩, hp.covers.error⟩

/-- A pass that takes no token and succeeds. -/
theorem Plays.does {p : Pass α} {x : α} (h : Plays p a (.ok x) a es) (htokens : tokensOf es = []) :
    Does strict p a (.ok x) a [] := ⟨⟨es, h, htokens⟩, .walked rfl (by simp)⟩

theorem does_pure (x : α) : Does strict (pure x) a (.ok x) a [] := (plays_pure x).does rfl

theorem does_note (n : Note) : Does strict (note n) a (.ok ()) a [] := (plays_note n).does rfl

theorem does_showTable (options : Options) (title : String) (table : Table) :
    Does strict (showTable options title table) a (.ok ()) a [] := by
  exact (plays_showTable options title table).does (tokensOf_table options _)

theorem does_enter (className name : String) (kind : SubroutineKind) :
    Does strict (enter className name kind) a
      (.ok (Subroutine.enter className name kind)) a [] := by
  unfold enter
  split
  · exact (does_note _).bind ((does_note _).bind (does_pure _))
  · exact (does_note _).bind (does_pure _)

theorem does_fail (line : Nat) {fault : Fault} (h : Finds strict fault) :
    Does strict (fail line fault : Pass α) a (.error ⟨line, fault⟩) a [] :=
  ⟨⟨[], plays_fail line fault, rfl⟩, .walked rfl (by rintro _ ⟨⟩; exact h)⟩

theorem Does.current_bind {f : Token → Pass α} {r : Except Problem α}
    (h : Does strict (f a.current) a r b ts) : Does strict (current >>= f) a r b ts :=
  (plays_current.does rfl).bind h

theorem does_unexpected (what : String) :
    Does strict (unexpected what : Pass α) a
      (.error ⟨a.current.line, .expected what a.current.kind⟩) a [] := by
  refine .current_bind ?_
  refine .current_bind (f := fun t => fail t.line (.expected what a.current.kind)) ?_
  exact does_fail _ (by simp [Finds, Fault.category])

/-- Consuming a token succeeds unless the next one cannot be scanned. -/
theorem does_next (ha : a.current.kind ≠ .eof) :
    (∃ b, Does strict next a (.ok a.current) b [a.current]) ∨
      ∃ e b, .error e ∈ a.ahead ∧ Does strict next a (.error e) b [a.current] := by
  have hplays := plays_next (δ := Array Event) (a := a)
  have hcovers : Covers strict a _ a.advance.2 [a.current] := covers_next ha
  rcases hadvance : a.advance with ⟨_ | e, b⟩
  · rw [hadvance] at hplays hcovers
    exact .inl ⟨b, ⟨_, hplays, rfl⟩, hcovers⟩
  · rw [hadvance] at hplays hcovers
    obtain ⟨rest, hahead⟩ := TokenStream.ahead_of_problem ha hadvance
    exact .inr ⟨e, b, by simp [hahead], ⟨_, hplays, rfl⟩, hcovers⟩

/-- Consuming a name, where there is one. -/
theorem does_expectName {name : String} (hk : a.current.kind = .identifier name) :
    (∃ b, Does strict expectName a (.ok name) b [a.current]) ∨
      ∃ e b, .error e ∈ a.ahead ∧ Does strict expectName a (.error e) b [a.current] := by
  have hname : ∀ {r b ts}, Does strict (do let _ ← next; return name) a r b ts →
      Does strict expectName a r b ts := fun h => .current_bind (by simpa only [hk] using h)
  obtain ⟨b, hdoes⟩ | ⟨e, b, he, hdoes⟩ := @does_next a strict (by simp [hk])
  · exact .inl ⟨b, hname (hdoes.bind (does_pure name))⟩
  · exact .inr ⟨e, b, he, hname hdoes.bind_error⟩

/-- A declaration takes no token. It is refused if the options are strict and the name is known. -/
theorem does_declare {options : Options} {context : Context} {table : Table} {kind : VariableKind}
    (htable : context.table? kind = some table) (name type : String) (line : Nat) :
    Does options.strict (declare options context name type kind line) a
      (if options.strict && table.contains name then .error ⟨line, .redeclared name⟩
        else .ok (context.setTable kind (table.define name type kind))) a [] := by
  unfold declare
  simp only [htable]
  split
  · rename_i hrefused
    refine does_fail line ⟨by simp [Fault.category], fun _ => ?_⟩
    exact (Bool.and_eq_true_iff.mp hrefused).1
  · exact (does_note _).bind (does_pure _)

end Does

/-! ### Passes that take no declaration -/

/-- The pass has a course on the stream, on which it takes no token that begins a declaration. -/
def Runs (p : Pass α) (a : TokenStream) : Prop :=
  ∃ r b ts, Does false p a r b ts ∧ ∀ t ∈ ts, t.kind.Plain

/-- The pass has such a course on every stream. -/
def Regular (p : Pass α) : Prop := ∀ a, Runs p a

/-- The contract of a pass with itself, by which it takes no declaration. -/
def plainContract (annotate : Bool) : Contract (Array Event) Problem (Array Event) Problem :=
  .over _ _ _ _ ⟨annotate, false⟩ ⟨annotate, false⟩ id TokenKind.Plain False True

theorem regular_of_lockstep (annotate : Bool) {p : Pass α}
    {Q : α → α → View (plainContract annotate) → Prop}
    (h : ∀ v : View (plainContract annotate), Lockstep (plainContract annotate) v p p Q) :
    Regular p := by
  intro a
  obtain ⟨r, b, es, hcourse⟩ :=
    exists_course (a := a) (c := plainContract annotate) trivial False.elim (h _)
  refine ⟨r, b, tokensOf es, ⟨⟨es, hcourse.plays, rfl⟩, hcourse.account.covers⟩, fun t ht => ?_⟩
  obtain ⟨event, hevent, htoken⟩ := List.mem_filterMap.mp ht
  cases event <;> cases htoken
  exact hcourse.account.takes t hevent

section Regular

theorem regular_punctuation (y : Symbol) : Regular (punctuation y) :=
  regular_of_lockstep false fun _ => lockstep_punctuation (fun _ h => h) y

theorem regular_keyword {w : Keyword} (hplain : (TokenKind.keyword w).Plain) :
    Regular (keyword w) :=
  regular_of_lockstep false fun _ => lockstep_keyword w hplain

theorem regular_expectName : Regular expectName :=
  regular_of_lockstep false fun _ => lockstep_expectName fun _ h => h

theorem regular_finish : Regular finish :=
  regular_of_lockstep false fun _ => lockstep_finish trivial

theorem regular_body (options : Options) {context : Context}
    (hcontext : context.subroutine.isSome = true) (bound : Nat) :
    Regular (body options context bound) :=
  regular_of_lockstep options.annotate fun _ =>
    lockstep_body trivial (fun _ h => h) ⟨False.elim, .inr hcontext⟩

end Regular

end Pass

end Jack
