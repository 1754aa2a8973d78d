import Jack.Proofs.Pass.Conduct

/-!
# Streams that cannot be told apart

Where a pass ends, after some tokens and with a token ahead, it ends in the same way on every stream
that goes on with the same tokens and has the same one ahead. So it reads no further than it has to
(`echoes_of_ok`, `echoes_of_error`).

Of a number the value counts and not its digits, and the lines of the tokens count for the line of a
complaint only. A pass keeps a record of every token that it takes (`Pass.Took`), a complaint about
a token names the one ahead (`Problem.Names`), and any other problem was met by scanning
(`TokenStream.Meets`).

All of this holds of passes in lockstep whose tokens are alike (`Lockstep.alike`).
-/

namespace Jack

/-- Where the fault is that of an unexpected token, it names the token ahead. -/
def Problem.Names (e : Problem) (a : TokenStream) : Prop :=
  ∀ what found, e.fault = .expected what found → a.current.kind = found

theorem Pass.Complaint.names {strict : Bool} {last : Option Token} {a : TokenStream} {e : Problem}
    (h : Complaint strict last a.current e) : e.Names a := by
  rintro what found hfault
  cases h with
  | unexpected => exact (Fault.expected.inj hfault).2
  | tooManyArguments | stringTooLong | unresolved | redeclared => cases hfault

/-! ## Streams that go on alike -/

/-- The stream goes on with tokens like the given ones, up to a stream whose current token is like
that of the given one. -/
structure Similar (ks : List TokenKind) (a t : TokenStream) (ls : List TokenKind)
    (b : TokenStream) : Prop where
  reads : t.Reads ls b
  like : ls.map TokenKind.essence = ks.map TokenKind.essence
  ahead : b.current.kind.essence = a.current.kind.essence

section Similar

variable {a b c t : TokenStream} {k : TokenKind} {ks ks' ls : List TokenKind}

theorem Similar.nil (h : Similar [] a t ls b) : ls = [] ∧ t = b := by
  have hls : ls = [] := List.map_eq_nil_iff.mp h.like
  exact ⟨hls, by simpa [hls, TokenStream.reads_nil] using h.reads⟩

theorem Similar.singleton (h : Similar [k] a t ls b) : ∃ l, ls = [l] ∧ l.essence = k.essence := by
  obtain ⟨l, hls, hl⟩ := List.map_eq_singleton_iff.mp h.like
  exact ⟨l, hls, hl⟩

/-- The streams are alike from the beginning. -/
theorem Similar.start (hc : c.Reads ks a) (h : Similar ks a t ls b) :
    t.current.kind.essence = c.current.kind.essence := by
  obtain ⟨hreads, hlike, hahead⟩ := h
  cases ks with
  | nil =>
    obtain rfl : ls = [] := List.map_eq_nil_iff.mp hlike
    rw [TokenStream.reads_nil.mp hc, TokenStream.reads_nil.mp hreads, hahead]
  | cons k ks =>
    obtain ⟨l, ls', rfl, hl, -⟩ := List.map_eq_cons_iff.mp hlike
    rw [hc.head, hreads.head, hl]

/-- At a point on the way the streams are alike, too. -/
theorem Similar.split (hc : c.Reads ks' a) (h : Similar (ks ++ ks') a t ls b) :
    ∃ ls₁ ls₂ b₁, ls = ls₁ ++ ls₂ ∧ Similar ks c t ls₁ b₁ ∧ Similar ks' a b₁ ls₂ b := by
  obtain ⟨hreads, hlike, hahead⟩ := h
  rw [List.map_append] at hlike
  obtain ⟨ls₁, ls₂, rfl, hlike₁, hlike₂⟩ := List.map_eq_append_iff.mp hlike
  obtain ⟨b₁, hreads₁, hreads₂⟩ := TokenStream.reads_append.mp hreads
  have hrest : Similar ks' a b₁ ls₂ b := ⟨hreads₂, hlike₂, hahead⟩
  exact ⟨ls₁, ls₂, b₁, rfl, ⟨hreads₁, hlike₁, hrest.start hc⟩, hrest⟩

end Similar

namespace Pass

variable {α β : Type} {s s' s'' t t' : State} {a b : TokenStream} {k : TokenKind}
  {ks ls : List TokenKind} {out out' : List Line}

/-! ## Tokens taken -/

/-- The kinds of the tokens consumed so far. -/
def State.consumed (s : State) : List TokenKind :=
  (s.device.toList.filterMap Event.token?).map Token.kind

/-- From one state to the other the given tokens were read and recorded, and the given lines were
written. -/
structure Took (s : State) (ks : List TokenKind) (out : List Line) (s' : State) : Prop
    extends Went s ks out s' where
  consumed : s'.consumed = s.consumed ++ ks

theorem Took.refl (s : State) : Took s [] [] s := ⟨Went.refl s, (List.append_nil _).symm⟩

theorem Took.trans (h : Took s ks out s') (h' : Took s' ls out' s'') :
    Took s (ks ++ ls) (out ++ out') s'' :=
  ⟨h.toWent.trans h'.toWent, by rw [h'.consumed, h.consumed, List.append_assoc]⟩

theorem Took.unique (h : Took s ks out s') (h' : Took s ls out' s') : ks = ls ∧ out = out' :=
  ⟨h.reads.unique h'.reads, List.append_cancel_left (h.lines.symm.trans h'.lines)⟩

theorem took_emit {e : Event} {u : Unit} (he : e.token? = none) (h : emit e s = .ok u s') :
    Took s [] e.line?.toList s' := by
  refine ⟨emit_ok h, ?_⟩
  cases h
  simp [State.consumed, he]

theorem took_writeLines {lines : List Line} {u : Unit} (h : writeLines lines s = .ok u s') :
    Took s [] lines s' := by
  refine ⟨writeLines_ok h, ?_⟩
  cases (writeLines_eq lines s).symm.trans h
  have hnone : (lines.map Event.line).filterMap Event.token? = [] := by
    rw [List.filterMap_map]
    exact List.filterMap_eq_nil_iff.mpr fun _ _ => rfl
  simp [State.consumed, hnone]

theorem took_next {token : Token} (h : next s = .ok token s') (hk : s.tokens.current.kind = k)
    (hne : k ≠ .eof) : Took s [k] [] s' := by
  refine ⟨(next_ok h hk hne).2, ?_⟩
  unfold next at h
  rw [current_bind] at h
  obtain ⟨_, s₁, hemit, h⟩ := bind_ok.mp h
  obtain ⟨_, s₂, hmove, h⟩ := bind_ok.mp h
  obtain ⟨rfl, rfl⟩ := pure_ok.mp h
  cases hemit
  unfold move at hmove
  split at hmove
  · cases hmove
    simp [State.consumed, Event.token?, hk]
  · cases hmove

/-! ## Echoes -/

/-- A pass with itself, over tokens that are alike. -/
def likeContract (options : Options) : Contract (Array Event) Problem (Array Event) Problem :=
  .sharing options False True (fun _ => entering_eq) fun _ => entering_eq

variable {options : Options}

theorem like_of_essence {t t' : Token} (h : t'.kind.essence = t.kind.essence) :
    (likeContract options).Like t t' := ⟨h, False.elim, False.elim⟩

/-- On every stream that goes on alike the pass takes the same tokens, writes the same lines and
ends as required. The first token of the stream is given. -/
def Echoes (q : Pass α) (first : Token) (ks : List TokenKind) (out : List Line) (a : TokenStream)
    (ends : EStateM.Result Problem State α → State → Prop) : Prop :=
  ∀ {t : State} {ls : List TokenKind} {b : TokenStream}, t.tokens.current = first →
    Similar ks a t.tokens ls b → ∃ t', ends (q t) t' ∧ Took t ls out t' ∧ t'.tokens = b

/-- The second pass does what the first one does, on any stream on which the first one cannot see a
difference. -/
structure Alike (v : View (likeContract options)) (p q : Pass α)
    (Q : α → α → View (likeContract options) → Prop) : Prop where
  ok : ∀ {s x s'}, s.tokens.current = v.ahead → p s = .ok x s' →
    ∃ ks out, Took s ks out s' ∧ (∃ x' w, w.ahead = s'.tokens.current ∧ Q x x' w) ∧
      Echoes q v.ahead' ks out s'.tokens fun r t' => ∃ x' w, r = .ok x' t' ∧
        w.ahead = s'.tokens.current ∧ w.ahead' = t'.tokens.current ∧ Q x x' w
  error : ∀ {s e s'}, s.tokens.current = v.ahead → p s = .error e s' →
    s.tokens.Meets e ∨ ∃ ks out, Took s ks out s' ∧ e.Names s'.tokens ∧
      Echoes q v.ahead' ks out s'.tokens fun r t' =>
        ∃ e', r = .error e' t' ∧ e'.fault.essence = e.fault.essence

variable {v : View (likeContract options)} {p q : Pass α} {f g : α → Pass β}
  {Q : α → α → View (likeContract options) → Prop} {R : β → β → View (likeContract options) → Prop}

theorem Alike.bind (hp : Alike v p q Q) (hf : ∀ x x' w, Q x x' w → Alike w (f x) (g x') R) :
    Alike v (p >>= f) (q >>= g) R := by
  constructor
  · intro s y s'' hs h
    obtain ⟨x, s', hok, h⟩ := bind_ok.mp h
    obtain ⟨ks, out, htook, ⟨x', w, hw, hQ⟩, hechoes⟩ := hp.ok hs hok
    obtain ⟨ks', out', htook', hR, -⟩ := (hf x x' w hQ).ok hw.symm h
    refine ⟨_, _, htook.trans htook', hR, fun ht hsim => ?_⟩
    obtain ⟨ls₁, ls₂, b₁, rfl, hsim₁, hsim₂⟩ := hsim.split htook'.reads
    obtain ⟨t₁, ⟨x₁, w₁, hq, hw₁, hw₁', hQ₁⟩, htook₁, rfl⟩ := hechoes ht hsim₁
    -- the tokens taken do not depend on the other stream
    obtain ⟨ks₁, out₁, htook₁', -, hechoes'⟩ := (hf x x₁ w₁ hQ₁).ok hw₁.symm h
    obtain ⟨rfl, rfl⟩ := htook'.unique htook₁'
    obtain ⟨t₂, ⟨y', w₂, hg, hR₂⟩, htook₂, rfl⟩ := hechoes' hw₁'.symm hsim₂
    exact ⟨t₂, ⟨y', w₂, bind_ok.mpr ⟨x₁, t₁, hq, hg⟩, hR₂⟩, htook₁.trans htook₂, rfl⟩
  · intro s e s'' hs h
    by_cases hmeets : s.tokens.Meets e
    · exact .inl hmeets
    obtain h | ⟨x, s', hok, h⟩ := bind_error.mp h
    · obtain hmeets' | ⟨ks, out, htook, hnames, hechoes⟩ := hp.error hs h
      · exact .inl hmeets'
      refine .inr ⟨ks, out, htook, hnames, fun ht hsim => ?_⟩
      obtain ⟨t', ⟨e', hq, hfault⟩, htook', htokens⟩ := hechoes ht hsim
      exact ⟨t', ⟨e', bind_error.mpr (.inl hq), hfault⟩, htook', htokens⟩
    · obtain ⟨ks, out, htook, ⟨x', w, hw, hQ⟩, hechoes⟩ := hp.ok hs hok
      have hrest : ∀ {x' w}, w.ahead = s'.tokens.current → Q x x' w → ∃ ks' out',
          Took s' ks' out' s'' ∧ e.Names s''.tokens ∧
          Echoes (g x') w.ahead' ks' out' s''.tokens fun r t' =>
            ∃ e', r = .error e' t' ∧ e'.fault.essence = e.fault.essence := fun {x' w} hw hQ =>
        ((hf x x' w hQ).error hw.symm h).resolve_left fun hmeets' =>
          hmeets (hmeets'.of_reads htook.reads)
      obtain ⟨ks', out', htook', hnames, -⟩ := hrest hw hQ
      refine .inr ⟨_, _, htook.trans htook', hnames, fun ht hsim => ?_⟩
      obtain ⟨ls₁, ls₂, b₁, rfl, hsim₁, hsim₂⟩ := hsim.split htook'.reads
      obtain ⟨t₁, ⟨x₁, w₁, hq, hw₁, hw₁', hQ₁⟩, htook₁, rfl⟩ := hechoes ht hsim₁
      obtain ⟨ks₁, out₁, htook₁', -, hechoes'⟩ := hrest hw₁ hQ₁
      obtain ⟨rfl, rfl⟩ := htook'.unique htook₁'
      obtain ⟨t₂, ⟨e', hg, hfault⟩, htook₂, rfl⟩ := hechoes' hw₁'.symm hsim₂
      exact ⟨t₂, ⟨e', bind_error.mpr (.inr ⟨x₁, t₁, hq, hg⟩), hfault⟩, htook₁.trans htook₂, rfl⟩

/-- Passes that take no token and succeed. -/
theorem alike_of_still {x x' : α} (hp : ∀ s, ∃ s', p s = .ok x s' ∧ Took s [] out s')
    (hq : ∀ s, ∃ s', q s = .ok x' s' ∧ Took s [] out s') (hQ : Q x x' v) : Alike v p q Q := by
  constructor
  · intro s y s' hs h
    obtain ⟨s₁, hok, htook⟩ := hp s
    cases hok.symm.trans h
    have htokens : s.tokens = s'.tokens := htook.reads
    refine ⟨[], out, htook, ⟨x', v, by rw [← htokens, hs], hQ⟩, fun {t ls b} ht hsim => ?_⟩
    obtain ⟨rfl, rfl⟩ := hsim.nil
    obtain ⟨t', hok', htook'⟩ := hq t
    have htokens' : t.tokens = t'.tokens := htook'.reads
    refine ⟨t', ⟨x', v, hok', ?_, ?_, hQ⟩, htook', htokens'.symm⟩
    · rw [← htokens, hs]
    · rw [← htokens', ht]
  · intro s e s' _ h
    obtain ⟨s₁, hok, -⟩ := hp s
    cases hok.symm.trans h

theorem alike_emit {e e' : Event} {Q : Unit → Unit → View (likeContract options) → Prop}
    (he : e.token? = none) (he' : e'.token? = none) (hlines : e'.line? = e.line?)
    (hQ : Q () () v) : Alike v (emit e) (emit e') Q := by
  have htook : ∀ {e : Event}, e.token? = none → ∀ s : State, ∃ s', emit e s = .ok () s' ∧
      Took s [] e.line?.toList s' := fun he s => ⟨_, rfl, took_emit he rfl⟩
  exact alike_of_still (htook he) (hlines ▸ htook he') hQ

/-- Consuming the current token, which is not the end of the input. -/
theorem alike_next {Q : Token → Token → View (likeContract options) → Prop}
    (hne : v.ahead.kind ≠ .eof)
    (hQ : ∀ t t' (h : (likeContract options).Like t t'),
      Q v.ahead v.ahead' ⟨some v.ahead, some v.ahead', t, t', h⟩) : Alike v next next Q := by
  constructor
  · intro s token s' hs h
    obtain ⟨rfl, -⟩ := next_ok h rfl (hs ▸ hne)
    refine ⟨_, _, took_next h rfl (hs ▸ hne), ?_, fun {t ls b} ht hsim => ?_⟩
    · exact ⟨v.ahead', _, rfl, hs ▸ hQ s'.tokens.current _ (like_of_essence rfl)⟩
    · obtain ⟨l, rfl, -⟩ := hsim.singleton
      obtain ⟨t', ht', rfl, -⟩ := goes_next hsim.reads t rfl
      obtain ⟨hl, hl', -⟩ := hsim.reads
      have hafter := hQ _ _ (like_of_essence hsim.ahead)
      rw [← hs, ← ht] at hafter
      exact ⟨t', ⟨_, _, ht', rfl, rfl, hafter⟩, took_next ht' hl hl', rfl⟩
  · intro s e s' _ h
    exact .inl ⟨[], s.tokens, rfl, next_error h⟩

/-- **Echoes.** A pass in lockstep with another one over tokens that are alike is echoed by it. -/
theorem Lockstep.alike (h : Lockstep (likeContract options) v p q Q) : Alike v p q Q := by
  induction h with
  | pure _ hQ =>
    exact alike_of_still (fun s => ⟨s, rfl, .refl s⟩) (fun s => ⟨s, rfl, .refl s⟩) hQ
  | bind _ _ ihp ihf => exact ihp.bind ihf
  | @current v Q hQ =>
    constructor
    · rintro s _ _ hs ⟨⟩
      refine ⟨[], [], .refl s, ⟨v.ahead', v, hs.symm, hs ▸ hQ⟩, fun {t ls b} ht hsim => ?_⟩
      obtain ⟨rfl, rfl⟩ := hsim.nil
      exact ⟨t, ⟨_, v, rfl, hs.symm, ht.symm, hs ▸ ht ▸ hQ⟩, .refl t, rfl⟩
    · rintro s e s' _ ⟨⟩
  | next hne _ hQ => exact alike_next hne hQ
  | line _ hQ | finish _ _ hQ => exact alike_emit rfl rfl rfl hQ
  | note _ hQ => exact alike_emit rfl rfl rfl hQ
  | @showTable v title table Q _ hQ =>
    have hlines : ∀ s, ∃ s', Pass.showTable options title table s = .ok () s' ∧ Took s []
        (if options.annotate then tableListing title table else []) s' := by
      intro s
      unfold Pass.showTable
      split
      · exact ⟨_, writeLines_eq _ s, took_writeLines (writeLines_eq _ s)⟩
      · exact ⟨s, rfl, .refl s⟩
    exact alike_of_still hlines hlines hQ
  | fail h h' hfault _ =>
    constructor
    · rintro s x s' _ ⟨⟩
    · rintro s e s' hs ⟨⟩
      refine .inr ⟨[], [], .refl s, (hs ▸ h).names, fun {t ls b} ht hsim => ?_⟩
      obtain ⟨rfl, rfl⟩ := hsim.nil
      exact ⟨t, ⟨_, rfl, hfault⟩, .refl t, rfl⟩
  | cut hleft hright => exact absurd (hleft.symm.trans hright) (by simp)

/-! ## Units -/

/-- The pass over a unit, in view of two tokens that are alike. -/
theorem alike_compilationUnit (options : Options) (bound : Nat) {first first' : Token}
    (h : first'.kind.essence = first.kind.essence) :
    Alike (⟨none, none, first, first', like_of_essence h⟩ : View (likeContract options))
      (compilationUnit options bound) (compilationUnit options bound)
      fun _ _ w => w.ahead.kind = .eof :=
  (lockstep_compilationUnit (fun _ => trivial) trivial trivial bound _).alike

variable {bound : Nat}

/-- **Success is echoed.** A pass over a unit that succeeds does so on every stream that goes on
alike. -/
theorem echoes_of_ok (h : compilationUnit options bound s = .ok () s') :
    ∃ ks out, Took s ks out s' ∧ ∀ {t : State} {ls b}, Similar ks s'.tokens t.tokens ls b →
      ∃ t', compilationUnit options bound t = .ok () t' ∧ Took t ls out t' ∧ t'.tokens = b := by
  obtain ⟨ks, out, htook, -⟩ := (alike_compilationUnit options bound rfl).ok rfl h
  refine ⟨ks, out, htook, fun hsim => ?_⟩
  obtain ⟨ks', out', htook', -, hechoes⟩ :=
    (alike_compilationUnit options bound (hsim.start htook.reads)).ok rfl h
  obtain ⟨rfl, rfl⟩ := htook.unique htook'
  obtain ⟨t', ⟨_, _, ht', -⟩, hend⟩ := hechoes rfl hsim
  exact ⟨t', ht', hend⟩

/-- **Failure is echoed.** A pass over a unit that stops has met a problem of scanning, or it stops
at the same fault on every stream that goes on alike. -/
theorem echoes_of_error {e : Problem} (h : compilationUnit options bound s = .error e s') :
    s.tokens.Meets e ∨ ∃ ks out, Took s ks out s' ∧ e.Names s'.tokens ∧
      ∀ {t : State} {ls b}, Similar ks s'.tokens t.tokens ls b →
        ∃ e' t', compilationUnit options bound t = .error e' t' ∧
          e'.fault.essence = e.fault.essence ∧ Took t ls out t' ∧ t'.tokens = b := by
  by_cases hmeets : s.tokens.Meets e
  · exact .inl hmeets
  obtain hmeets' | ⟨ks, out, htook, hnames, -⟩ :=
    (alike_compilationUnit options bound rfl).error rfl h
  · exact .inl hmeets'
  refine .inr ⟨ks, out, htook, hnames, fun hsim => ?_⟩
  obtain hmeets' | ⟨ks', out', htook', -, hechoes⟩ :=
    (alike_compilationUnit options bound (hsim.start htook.reads)).error rfl h
  · exact absurd hmeets' hmeets
  obtain ⟨rfl, rfl⟩ := htook.unique htook'
  obtain ⟨t', ⟨e', ht', hfault⟩, hend⟩ := hechoes rfl hsim
  exact ⟨e', t', ht', hfault, hend⟩

end Pass

end Jack
