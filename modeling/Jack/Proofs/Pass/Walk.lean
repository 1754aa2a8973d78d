import Mathlib.Data.List.Basic
import Jack.Pass.Class
import Jack.Proofs.Syntax.Tree

/-!
# Walks over a token stream

The two directions in which passes are described.

1. `TokenStream.Reads` says that one stream is another one some tokens further on. The end of the
   input is never read.
2. `Pass.Went` is the view from outside on a pass that succeeded: the tokens it read and the lines
   it wrote. The lemmas on the operations of a pass are named `..._ok`.
3. `Pass.Goes` promises that a pass succeeds on a stream, whatever has been recorded before. The
   lemmas on the operations of a pass are named `goes_...`.

Both compose along `>>=`.
-/

namespace Jack

theorem TokenKind.symbol?_eq_some {k : TokenKind} {y : Symbol} :
    k.symbol? = some y ↔ k = .symbol y := by
  cases k <;> simp [symbol?]

theorem TokenKind.keyword?_eq_some {k : TokenKind} {w : Keyword} :
    k.keyword? = some w ↔ k = .keyword w := by
  cases k <;> simp [keyword?]

/-! ## Streams -/

namespace TokenStream

/-- One stream is another one after the given tokens. -/
def Reads : TokenStream → List TokenKind → TokenStream → Prop
  | a, [], b => a = b
  | a, k :: ks, b => a.current.kind = k ∧ k ≠ .eof ∧ a.advance.1 = none ∧ a.advance.2.Reads ks b

variable {a b c : TokenStream} {k : TokenKind} {ks ls : List TokenKind}

theorem reads_nil : a.Reads [] b ↔ a = b := Iff.rfl

theorem reads_cons : a.Reads (k :: ks) b ↔
    a.current.kind = k ∧ k ≠ .eof ∧ a.advance.1 = none ∧ a.advance.2.Reads ks b := Iff.rfl

theorem Reads.head (h : a.Reads (k :: ks) b) : a.current.kind = k := h.1

theorem reads_append : a.Reads (ks ++ ls) c ↔ ∃ b, a.Reads ks b ∧ b.Reads ls c := by
  induction ks generalizing a with
  | nil => simp [reads_nil]
  | cons k ks ih =>
    rw [List.cons_append, reads_cons, ih]
    constructor
    · rintro ⟨hk, hne, hadv, b, hb, hc⟩
      exact ⟨b, ⟨hk, hne, hadv, hb⟩, hc⟩
    · rintro ⟨b, ⟨hk, hne, hadv, hb⟩, hc⟩
      exact ⟨hk, hne, hadv, b, hb, hc⟩

theorem Reads.append (h : a.Reads ks b) (h' : b.Reads ls c) : a.Reads (ks ++ ls) c :=
  reads_append.mpr ⟨b, h, h'⟩

/-- The first token, and the walk over the others. -/
theorem Reads.uncons (h : a.Reads (k :: ks) c) : ∃ b, a.Reads [k] b ∧ b.Reads ks c :=
  reads_append.mp (show a.Reads ([k] ++ ks) c from h)

/-- Reading makes a stream smaller, by at least one for each token. -/
theorem Reads.size_add_length_le (h : a.Reads ks b) : b.size + ks.length ≤ a.size := by
  induction ks generalizing a with
  | nil => rw [reads_nil] at h; simp [h]
  | cons k ks ih =>
    obtain ⟨hk, hne, -, hrest⟩ := h
    have heof : a.current.isEof = false := by
      rw [← Bool.not_eq_true, Token.isEof, TokenKind.isEof_iff, hk]
      exact hne
    have hlt := size_advance_lt heof
    have hle := ih hrest
    rw [List.length_cons]
    omega

/-- The tokens between two streams are determined by the streams. -/
theorem Reads.unique (h : a.Reads ks b) (h' : a.Reads ls b) : ks = ls := by
  induction ks generalizing a ls with
  | nil =>
    cases ls with
    | nil => rfl
    | cons l ls =>
      rw [reads_nil] at h
      have := h'.size_add_length_le
      rw [h, List.length_cons] at this
      omega
  | cons k ks ih =>
    cases ls with
    | nil =>
      rw [reads_nil] at h'
      have := h.size_add_length_le
      rw [h', List.length_cons] at this
      omega
    | cons l ls =>
      obtain ⟨hk, -, -, hrest⟩ := h
      obtain ⟨hl, -, -, hrest'⟩ := h'
      rw [← hk, ← hl, ih hrest hrest']

/-- Reading on meets the problem. -/
def Meets (a : TokenStream) (e : Problem) : Prop := ∃ ks b, a.Reads ks b ∧ b.advance.1 = some e

theorem Meets.of_reads {e : Problem} (h : b.Meets e) (hreads : a.Reads ks b) : a.Meets e := by
  obtain ⟨ls, c, hls, hadvance⟩ := h
  exact ⟨ks ++ ls, c, hreads.append hls, hadvance⟩

end TokenStream

namespace Pass

variable {α β : Type} {s s' s'' : State} {a b c : TokenStream} {k : TokenKind}
  {ks ls : List TokenKind} {out out' : List Line}

/-- The lines of code written so far. -/
def State.lines (s : State) : List Line := s.device.toList.filterMap Event.line?

theorem bind_ok {p : Pass α} {f : α → Pass β} {y : β} :
    (p >>= f) s = .ok y s'' ↔ ∃ x s', p s = .ok x s' ∧ f x s' = .ok y s'' := by
  show EStateM.bind p f s = _ ↔ _
  unfold EStateM.bind
  cases hp : p s with
  | ok x s' => simp
  | error e s' => simp

theorem bind_error {p : Pass α} {f : α → Pass β} {e : Problem} :
    (p >>= f) s = .error e s'' ↔
      p s = .error e s'' ∨ ∃ x s', p s = .ok x s' ∧ f x s' = .error e s'' := by
  show EStateM.bind p f s = _ ↔ _
  unfold EStateM.bind
  cases hp : p s with
  | ok x s' => simp
  | error e s' => simp

theorem pure_ok {x y : α} : (pure x : Pass α) s = .ok y s' ↔ x = y ∧ s = s' := by
  show EStateM.Result.ok x s = _ ↔ _
  simp

section Devices

variable {δ ε : Type} [Device δ ε]

theorem scope_of_some {context : Context} {subroutine : Subroutine}
    (h : context.subroutine = some subroutine) :
    (scope context : PassOn δ ε Subroutine) = pure subroutine := by
  unfold scope
  rw [h]

theorem label_of_some {context : Context} {subroutine : Subroutine}
    (h : context.subroutine = some subroutine) (mark : Mark) (number : Nat) :
    (label context mark number : PassOn δ ε String) =
      pure (Label.mk subroutine.name mark number).text := by
  unfold label
  rw [scope_of_some h, pure_bind]

end Devices

/-- A journal does not show which functions were entered. -/
theorem entering_eq (site : Site) (bound : Nat) (p : Pass α) : entering site bound p = p := rfl

/-! ## What a pass did -/

/-- From one state to the other the given tokens were read and the given lines were written. -/
structure Went (s : State) (ks : List TokenKind) (out : List Line) (s' : State) : Prop where
  reads : s.tokens.Reads ks s'.tokens
  lines : s'.lines = s.lines ++ out

theorem Went.refl (s : State) : Went s [] [] s := ⟨rfl, (List.append_nil _).symm⟩

theorem Went.trans (h : Went s ks out s') (h' : Went s' ls out' s'') :
    Went s (ks ++ ls) (out ++ out') s'' :=
  ⟨h.reads.append h'.reads, by rw [h'.lines, h.lines, List.append_assoc]⟩

/-- A walk with its tokens and its lines in another form. -/
theorem Went.congr (h : Went s ks out s') (hks : ks = ls) (hout : out = out') :
    Went s ls out' s' := by
  subst hks hout
  exact h

theorem emit_ok {e : Event} {u : Unit} (h : emit e s = .ok u s') :
    Went s [] e.line?.toList s' := by
  cases h
  refine ⟨rfl, ?_⟩
  cases he : e.line? <;> simp [State.lines, he]

theorem write_ok {i : Instruction} {u : Unit} (h : write i s = .ok u s') :
    Went s [] [.instruction i] s' := emit_ok h

theorem note_ok {n : Note} {u : Unit} (h : note n s = .ok u s') : Went s [] [] s' := emit_ok h

theorem writeLines_eq (lines : List Line) (s : State) :
    writeLines lines s = .ok () { s with device := s.device ++ lines.map Event.line } := by
  induction lines generalizing s with
  | nil => simp [writeLines, pure, EStateM.pure]
  | cons l lines ih =>
    show writeLines lines { s with device := s.device.push (.line l) } = _
    simp [ih]

theorem writeLines_ok {lines : List Line} {u : Unit} (h : writeLines lines s = .ok u s') :
    Went s [] lines s' := by
  cases (writeLines_eq lines s).symm.trans h
  refine ⟨rfl, ?_⟩
  have hlines : (lines.map Event.line).filterMap Event.line? = lines := by
    rw [List.filterMap_map]
    exact List.filterMap_some
  simp [State.lines, hlines]

theorem writeAll_ok {code : List Instruction} {u : Unit} (h : writeAll code s = .ok u s') :
    Went s [] (code.map .instruction) s' := writeLines_ok h

theorem not_fail_ok {line : Nat} {fault : Fault} {x : α} : ¬ fail line fault s = .ok x s' := by
  intro h
  cases h

theorem not_complain_ok {fault : Fault} {x : α} : ¬ complain fault s = .ok x s' := by
  intro h
  cases h

theorem not_unexpected_ok {what : String} {x : α} : ¬ unexpected what s = .ok x s' := by
  intro h
  cases h

/-! ### Looking ahead -/

theorem current_bind (f : Token → Pass α) : (current >>= f) s = f s.tokens.current s := rfl

theorem line_bind (f : Nat → Pass α) : (line >>= f) s = f s.tokens.current.line s := rfl

theorem symbol?_bind (f : Option Symbol → Pass α) :
    (symbol? >>= f) s = f s.tokens.current.kind.symbol? s := rfl

theorem keyword?_bind (f : Option Keyword → Pass α) :
    (keyword? >>= f) s = f s.tokens.current.kind.keyword? s := rfl

/-! ### Reading -/

theorem next_ok {t : Token} (h : next s = .ok t s') (hk : s.tokens.current.kind = k)
    (hne : k ≠ .eof) : t = s.tokens.current ∧ Went s [k] [] s' := by
  unfold next at h
  rw [current_bind] at h
  obtain ⟨_, s₁, hemit, h⟩ := bind_ok.mp h
  obtain ⟨_, s₂, hmove, h⟩ := bind_ok.mp h
  obtain ⟨rfl, rfl⟩ := pure_ok.mp h
  cases hemit
  unfold move at hmove
  split at hmove
  · rename_i tokens hadv
    cases hmove
    refine ⟨rfl, ⟨hk, hne, ?_, ?_⟩, ?_⟩
    · exact congrArg Prod.fst hadv
    · exact congrArg Prod.snd hadv
    · simp [State.lines, Event.line?]
  · cases hmove

/-- Consuming a token fails only where the next one cannot be scanned. -/
theorem next_error {e : Problem} (h : next s = .error e s') : s.tokens.advance.1 = some e := by
  unfold next at h
  rw [current_bind] at h
  obtain h | ⟨_, s₁, hemit, h⟩ := bind_error.mp h
  · cases h
  obtain h | ⟨_, s₂, -, h⟩ := bind_error.mp h
  · cases hemit
    unfold move at h
    split at h
    · cases h
    · rename_i problem tokens hadv
      cases h
      exact congrArg Prod.fst hadv
  · cases h

theorem accept_ok {found : Bool} (h : accept k s = .ok found s') (hne : k ≠ .eof) :
    (found = true ∧ Went s [k] [] s') ∨ (found = false ∧ s.tokens.current.kind ≠ k ∧ s' = s) := by
  unfold accept at h
  rw [current_bind] at h
  by_cases hk : s.tokens.current.kind = k
  · rw [if_pos hk] at h
    obtain ⟨t, s₁, hnext, h⟩ := bind_ok.mp h
    obtain ⟨rfl, rfl⟩ := pure_ok.mp h
    exact .inl ⟨rfl, (next_ok hnext hk hne).2⟩
  · rw [if_neg hk] at h
    obtain ⟨rfl, rfl⟩ := pure_ok.mp h
    exact .inr ⟨rfl, hk, rfl⟩

theorem expect_ok {t : Token} (h : expect k s = .ok t s') (hne : k ≠ .eof) : Went s [k] [] s' := by
  unfold expect at h
  rw [current_bind] at h
  by_cases hk : s.tokens.current.kind = k
  · rw [if_pos hk] at h
    exact (next_ok h hk hne).2
  · rw [if_neg hk] at h
    exact absurd h not_unexpected_ok

theorem punctuation_ok {y : Symbol} {u : Unit} (h : punctuation y s = .ok u s') :
    Went s [.symbol y] [] s' := by
  obtain ⟨t, s₁, hexp, h⟩ := bind_ok.mp h
  obtain ⟨rfl, rfl⟩ := pure_ok.mp h
  exact expect_ok hexp (by simp)

theorem keyword_ok {w : Keyword} {u : Unit} (h : keyword w s = .ok u s') :
    Went s [.keyword w] [] s' := by
  obtain ⟨t, s₁, hexp, h⟩ := bind_ok.mp h
  obtain ⟨rfl, rfl⟩ := pure_ok.mp h
  exact expect_ok hexp (by simp)

theorem expectName_ok {name : String} (h : expectName s = .ok name s') :
    Went s [.identifier name] [] s' := by
  unfold expectName at h
  rw [current_bind] at h
  cases hk : s.tokens.current.kind with
  | identifier n =>
    simp only [hk] at h
    obtain ⟨t, s₁, hnext, h⟩ := bind_ok.mp h
    obtain ⟨rfl, rfl⟩ := pure_ok.mp h
    exact (next_ok hnext hk (by simp)).2
  | _ =>
    simp only [hk] at h
    exact absurd h not_unexpected_ok

theorem between_ok {p : Pass α} {opening closing : Symbol} {x : α}
    (h : between opening closing p s = .ok x s') :
    ∃ s₁ s₂, Went s [.symbol opening] [] s₁ ∧ p s₁ = .ok x s₂ ∧
      Went s₂ [.symbol closing] [] s' := by
  obtain ⟨_, s₁, hopen, h⟩ := bind_ok.mp h
  obtain ⟨y, s₂, hin, h⟩ := bind_ok.mp h
  obtain ⟨_, s₃, hclose, h⟩ := bind_ok.mp h
  obtain ⟨rfl, rfl⟩ := pure_ok.mp h
  exact ⟨s₁, s₂, punctuation_ok hopen, hin, punctuation_ok hclose⟩

/-- Tokens between two symbols, from the walk over what is inside. -/
theorem Went.enclosed {s₁ s₂ : State} {opening closing : Symbol}
    (hopen : Went s [.symbol opening] [] s₁) (hin : Went s₁ ks out s₂)
    (hclose : Went s₂ [.symbol closing] [] s') :
    Went s (Jack.enclosed opening closing ks) out s' :=
  (hopen.trans (hin.trans hclose)).congr rfl (List.append_nil _)

/-! ## What a pass will do -/

/-- From one stream to the other the pass succeeds, with the given result and lines. -/
def Goes (p : Pass α) (a : TokenStream) (x : α) (out : List Line) (b : TokenStream) : Prop :=
  ∀ s : State, s.tokens = a → ∃ s', p s = .ok x s' ∧ s'.tokens = b ∧ s'.lines = s.lines ++ out

theorem goes_pure (x : α) (a : TokenStream) : Goes (pure x) a x [] a :=
  fun s hs => ⟨s, rfl, hs, (List.append_nil _).symm⟩

theorem Goes.bind {p : Pass α} {f : α → Pass β} {x : α} {y : β} (hp : Goes p a x out b)
    (hf : Goes (f x) b y out' c) : Goes (p >>= f) a y (out ++ out') c := by
  intro s hs
  obtain ⟨s₁, hok, htokens, hlines⟩ := hp s hs
  obtain ⟨s₂, hok', htokens', hlines'⟩ := hf s₁ htokens
  exact ⟨s₂, bind_ok.mpr ⟨x, s₁, hok, hok'⟩, htokens',
    by rw [hlines', hlines, List.append_assoc]⟩

/-- A first step that writes nothing. -/
theorem Goes.step {p : Pass α} {f : α → Pass β} {x : α} {y : β} (hp : Goes p a x [] b)
    (hf : Goes (f x) b y out c) : Goes (p >>= f) a y out c := hp.bind hf

theorem Goes.congr {p : Pass α} {x : α} (h : Goes p a x out b) (hout : out = out') :
    Goes p a x out' b := by
  subst hout
  exact h

theorem goes_current_bind {f : Token → Pass α} {x : α} (h : Goes (f a.current) a x out b) :
    Goes (current >>= f) a x out b := by
  rintro s rfl
  exact h s rfl

theorem goes_line_bind {f : Nat → Pass α} {x : α} (h : Goes (f a.current.line) a x out b) :
    Goes (line >>= f) a x out b := by
  rintro s rfl
  exact h s rfl

theorem goes_symbol?_bind {f : Option Symbol → Pass α} {x : α}
    (h : Goes (f a.current.kind.symbol?) a x out b) : Goes (symbol? >>= f) a x out b := by
  rintro s rfl
  exact h s rfl

theorem goes_keyword?_bind {f : Option Keyword → Pass α} {x : α}
    (h : Goes (f a.current.kind.keyword?) a x out b) : Goes (keyword? >>= f) a x out b := by
  rintro s rfl
  exact h s rfl

theorem goes_emit (e : Event) (a : TokenStream) : Goes (emit e) a () e.line?.toList a := by
  intro s hs
  obtain ⟨s', h⟩ : ∃ s', emit e s = .ok () s' := ⟨_, rfl⟩
  have hwent := emit_ok h
  exact ⟨s', h, (hs ▸ hwent.reads).symm, hwent.lines⟩

theorem goes_write (i : Instruction) (a : TokenStream) :
    Goes (write i) a () [.instruction i] a := goes_emit _ a

theorem goes_note (n : Note) (a : TokenStream) : Goes (note n) a () [] a := goes_emit _ a

theorem goes_writeLines (lines : List Line) (a : TokenStream) :
    Goes (writeLines lines) a () lines a := by
  intro s hs
  obtain ⟨s', h⟩ : ∃ s', writeLines lines s = .ok () s' := ⟨_, writeLines_eq lines s⟩
  have hwent := writeLines_ok h
  exact ⟨s', h, (hs ▸ hwent.reads).symm, hwent.lines⟩

theorem goes_writeAll (code : List Instruction) (a : TokenStream) :
    Goes (writeAll code) a () (code.map .instruction) a := goes_writeLines _ a

theorem goes_next (h : a.Reads [k] b) : Goes next a a.current [] b := by
  rintro s rfl
  obtain ⟨-, -, hadv, rfl⟩ := h
  refine ⟨⟨s.tokens.advance.2, s.device.push (.token s.tokens.current)⟩, ?_, rfl, ?_⟩
  · unfold next
    rw [current_bind]
    refine bind_ok.mpr ⟨(), _, rfl, bind_ok.mpr ⟨(), _, ?_, rfl⟩⟩
    show move ⟨s.tokens, s.device.push (.token s.tokens.current)⟩ = _
    unfold move
    rw [show s.tokens.advance = (none, s.tokens.advance.2) from Prod.ext hadv rfl]
  · simp [State.lines, Event.line?]

theorem goes_accept (h : a.Reads [k] b) : Goes (accept k) a true [] b := by
  refine goes_current_bind ?_
  rw [if_pos h.head]
  exact (goes_next h).step (goes_pure true b)

theorem goes_accept_ne (h : a.current.kind ≠ k) : Goes (accept k) a false [] a := by
  refine goes_current_bind ?_
  rw [if_neg h]
  exact goes_pure false a

theorem goes_expect (h : a.Reads [k] b) : Goes (expect k) a a.current [] b := by
  refine goes_current_bind ?_
  rw [if_pos h.head]
  exact goes_next h

theorem goes_punctuation {y : Symbol} (h : a.Reads [.symbol y] b) :
    Goes (punctuation y) a () [] b := (goes_expect h).step (goes_pure () b)

theorem goes_keyword {w : Keyword} (h : a.Reads [.keyword w] b) : Goes (keyword w) a () [] b :=
  (goes_expect h).step (goes_pure () b)

theorem goes_expectName {name : String} (h : a.Reads [.identifier name] b) :
    Goes expectName a name [] b := by
  refine goes_current_bind ?_
  simp only [h.head]
  exact (goes_next h).step (goes_pure name b)

/-- Tokens between two symbols, for a pass that reads what is inside. -/
theorem goes_between {p : Pass α} {opening closing : Symbol} {x : α}
    (h : a.Reads (enclosed opening closing ks) b)
    (hp : ∀ {a' b'}, a'.Reads ks b' → b'.current.kind = .symbol closing → Goes p a' x out b') :
    Goes (between opening closing p) a x out b := by
  obtain ⟨a₁, hopen, h⟩ := h.uncons
  obtain ⟨a₂, hin, hclose⟩ := TokenStream.reads_append.mp h
  refine (goes_punctuation hopen).step ?_
  refine ((hp hin hclose.head).bind ?_).congr (List.append_nil _)
  exact (goes_punctuation hclose).step (goes_pure x b)

end Pass

end Jack
