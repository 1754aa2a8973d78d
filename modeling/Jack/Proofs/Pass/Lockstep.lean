import Mathlib.Data.List.Basic
import Jack.Proofs.Pass.Legible
import Jack.Proofs.Pass.Walk

/-!
# Two passes side by side

What all functions of a pass have in common is said once, about two passes that go on side by side.
They may drive different devices, have different options, and read tokens that differ in what makes
no difference to them. `Pass.Lockstep` is the relation. It is made from the operations of a pass:
the two do the same ones in the same order, and stop together. The one exception is a name that is
declared again, at which only the second pass may stop.

1. A `Contract` says what is compared and what may be relied on.
2. A `View` is what two passes see: the tokens that they have taken last, and those ahead.
3. A `Complaint` is a problem that a pass may find by itself, in view of these tokens. Each names
   the line of one of them.

The operations of a pass are related to themselves under every contract that allows what they do.
Whatever holds of passes in lockstep is proved by induction on the relation.
-/

namespace Jack

/-! ## What tokens have in common -/

namespace TokenKind

/-- The token without the digits of a number. -/
def essence : TokenKind → TokenKind
  | integer value _ => integer value ""
  | k => k

variable {k l : TokenKind}

theorem symbol?_essence (k : TokenKind) : k.essence.symbol? = k.symbol? := by cases k <;> rfl

theorem keyword?_essence (k : TokenKind) : k.essence.keyword? = k.keyword? := by cases k <;> rfl

theorem ne_eof_of_symbol? {y : Symbol} (h : k.symbol? = some y) : k ≠ eof := by
  rintro rfl
  cases h

theorem ne_eof_of_keyword? {w : Keyword} (h : k.keyword? = some w) : k ≠ eof := by
  rintro rfl
  cases h

/-- Tokens that differ at most in the digits of a number. -/
theorem eq_or_integer_of_essence (h : k.essence = l.essence) :
    k = l ∨ ∃ value digits digits', k = integer value digits ∧ l = integer value digits' := by
  cases k with
  | integer value digits =>
    cases l with
    | integer value' digits' =>
      obtain ⟨rfl, -⟩ := integer.inj h
      exact .inr ⟨value, digits, digits', rfl, rfl⟩
    | _ => cases h
  | _ =>
    cases l with
    | integer value' digits' => cases h
    | _ => exact .inl h

/-- Whether the token begins a declaration. -/
def declares : TokenKind → Bool
  | keyword .static | keyword .field | keyword .var => true
  | keyword .constructor | keyword .function | keyword .method => true
  | _ => false

/-- A token that begins no declaration. -/
def Plain (k : TokenKind) : Prop := k.declares = false

end TokenKind

/-- The fault without the digits of a number that was found. -/
def Fault.essence : Fault → Fault
  | expected what found => expected what found.essence
  | fault => fault

namespace Pass

/-! ## Complaints -/

/-- A problem that a pass finds by itself, in view of the token taken last and of the one ahead.
Only a strict one objects to declarations. -/
inductive Complaint (strict : Bool) (last : Option Token) (ahead : Token) : Problem → Prop
  | unexpected (what : String) : Complaint strict last ahead ⟨ahead.line, .expected what ahead.kind⟩
  | tooManyArguments : Complaint strict last ahead ⟨ahead.line, .tooManyArguments⟩
  | stringTooLong {characters : String} {line : Nat}
      (hlast : last = some ⟨.string characters, line⟩)
      (hlong : maxConstant < characters.toList.length) :
      Complaint strict last ahead ⟨ahead.line, .stringTooLong⟩
  | unresolved {name : String} {line : Nat} (hlast : last = some ⟨.identifier name, line⟩) :
      Complaint strict last ahead ⟨line, .unresolved name⟩
  | redeclared {name : String} {line : Nat} (hlast : last = some ⟨.identifier name, line⟩)
      (hstrict : strict = true) : Complaint strict last ahead ⟨line, .redeclared name⟩

/-! ## Contracts and views -/

/-- What is compared: two passes on two devices, each with its options. -/
structure Contract (δ ε δ' ε' : Type) [Device δ ε] [Device δ' ε'] where
  left : Options
  right : Options
  /-- The tokens that may be taken. -/
  takes : TokenKind → Prop
  /-- Both passes read the same tokens. -/
  same : Prop
  /-- The tokens are as scanning answers them. -/
  genuine : Prop
  /-- The end of the unit may be announced. -/
  ends : Prop
  /-- Functions may be entered. -/
  enters : Prop
  strict : left.strict = true → right.strict = true
  /-- Where functions are entered, the devices do not watch. -/
  unwatched : enters → ∀ {α : Type} (site : Site) (bound : Nat) (p : PassOn δ ε α),
    entering site bound p = p
  unwatched' : enters → ∀ {α : Type} (site : Site) (bound : Nat) (p : PassOn δ' ε' α),
    entering site bound p = p

variable {δ ε δ' ε' : Type} [Device δ ε] [Device δ' ε'] {c : Contract δ ε δ' ε'}

/-- The contract of two passes with the same options. They may take any token. -/
def Contract.sharing (options : Options) (same enters : Prop)
    (unwatched : enters → ∀ {α : Type} (site : Site) (bound : Nat) (p : PassOn δ ε α),
      entering site bound p = p)
    (unwatched' : enters → ∀ {α : Type} (site : Site) (bound : Nat) (p : PassOn δ' ε' α),
      entering site bound p = p) : Contract δ ε δ' ε' where
  left := options
  right := options
  takes _ := True
  same := same
  genuine := False
  ends := True
  enters := enters
  strict := id
  unwatched := unwatched
  unwatched' := unwatched'

/-- The tokens differ at most in the line and in the digits of a number. -/
structure Contract.Like (c : Contract δ ε δ' ε') (t t' : Token) : Prop where
  essence : t'.kind.essence = t.kind.essence
  eq_of_same : c.same → t' = t
  wellFormed : c.genuine → t.kind = .eof ∨ t.kind.WellFormed

theorem Contract.like_refl {t : Token} (h : c.genuine → t.kind = .eof ∨ t.kind.WellFormed) :
    c.Like t t := ⟨rfl, fun _ => rfl, h⟩

/-- What the two passes see: the token taken last, if there is one, and the token ahead. -/
structure View (c : Contract δ ε δ' ε') where
  last : Option Token
  last' : Option Token
  ahead : Token
  ahead' : Token
  like : c.Like ahead ahead'

namespace View

variable (v : View c)

theorem symbol? : v.ahead'.kind.symbol? = v.ahead.kind.symbol? := by
  rw [← TokenKind.symbol?_essence, v.like.essence, TokenKind.symbol?_essence]

theorem keyword? : v.ahead'.kind.keyword? = v.ahead.kind.keyword? := by
  rw [← TokenKind.keyword?_essence, v.like.essence, TokenKind.keyword?_essence]

/-- The tokens ahead are of one kind, or a number in two spellings. -/
theorem kinds : v.ahead'.kind = v.ahead.kind ∨ ∃ value digits digits',
    v.ahead'.kind = .integer value digits' ∧ v.ahead.kind = .integer value digits := by
  obtain h | ⟨value, digits', digits, h', h⟩ := TokenKind.eq_or_integer_of_essence v.like.essence
  · exact .inl h
  · exact .inr ⟨value, digits, digits', h', h⟩

theorem kind_eq {k : TokenKind} (hk : ∀ value digits, k ≠ .integer value digits)
    (h : v.ahead.kind = k) : v.ahead'.kind = k := by
  obtain heq | ⟨value, digits, digits', -, heq⟩ := v.kinds
  · rw [heq, h]
  · exact absurd (h.symm.trans heq) (hk value digits)

theorem kind_ne {k : TokenKind} (hk : ∀ value digits, k ≠ .integer value digits)
    (h : v.ahead.kind ≠ k) : v.ahead'.kind ≠ k := by
  obtain heq | ⟨value, digits, digits', heq, -⟩ := v.kinds
  · rwa [heq]
  · rw [heq]
    exact fun heq => hk _ _ heq.symm

theorem line_of_same (h : c.same) : v.ahead'.line = v.ahead.line := by rw [v.like.eq_of_same h]

end View

/-! ## Lockstep -/

/-- The two passes do the same. From the given view they lead to results and views as required, or
both stop with complaints about the same fault. A name that is declared again may stop the second
pass alone. -/
inductive Lockstep (c : Contract δ ε δ' ε') : {α : Type} → View c → PassOn δ ε α →
    PassOn δ' ε' α → (α → α → View c → Prop) → Prop
  | pure {α : Type} {v : View c} {x x' : α} {Q : α → α → View c → Prop}
      (hx : c.same → x' = x) (hQ : Q x x' v) : Lockstep c v (pure x) (pure x') Q
  | bind {α β : Type} {v : View c} {p : PassOn δ ε α} {p' : PassOn δ' ε' α}
      {f : α → PassOn δ ε β} {f' : α → PassOn δ' ε' β} {R : α → α → View c → Prop}
      {Q : β → β → View c → Prop} (hp : Lockstep c v p p' R)
      (hf : ∀ x x' w, R x x' w → Lockstep c w (f x) (f' x') Q) :
      Lockstep c v (p >>= f) (p' >>= f') Q
  | current {v : View c} {Q : Token → Token → View c → Prop} (hQ : Q v.ahead v.ahead' v) :
      Lockstep c v current current Q
  | next {v : View c} {Q : Token → Token → View c → Prop} (hne : v.ahead.kind ≠ .eof)
      (htakes : c.takes v.ahead.kind)
      (hQ : ∀ t t' (h : c.Like t t'),
        Q v.ahead v.ahead' ⟨some v.ahead, some v.ahead', t, t', h⟩) :
      Lockstep c v next next Q
  | line {v : View c} {l : Line} {Q : Unit → Unit → View c → Prop}
      (hl : c.genuine → l.Legible) (hQ : Q () () v) :
      Lockstep c v (emit (.line l)) (emit (.line l)) Q
  | note {v : View c} {n n' : Note} {Q : Unit → Unit → View c → Prop}
      (hn : c.same → n' = n) (hQ : Q () () v) : Lockstep c v (note n) (note n') Q
  | showTable {v : View c} {title : String} {table : Table} {Q : Unit → Unit → View c → Prop}
      (hl : c.genuine → ∀ l ∈ tableListing title table, l.Legible) (hQ : Q () () v) :
      Lockstep c v (showTable c.left title table) (showTable c.right title table) Q
  | fail {α : Type} {v : View c} {line line' : Nat} {fault fault' : Fault}
      {Q : α → α → View c → Prop} (h : Complaint c.left.strict v.last v.ahead ⟨line, fault⟩)
      (h' : Complaint c.right.strict v.last' v.ahead' ⟨line', fault'⟩)
      (hfault : fault'.essence = fault.essence) (hline : c.same → line' = line ∧ fault' = fault) :
      Lockstep c v (fail line fault) (fail line' fault') Q
  | cut {α : Type} {v : View c} {n : Note} {x : α} {line : Nat} {name : String}
      {Q : α → α → View c → Prop} (hleft : c.left.strict = false) (hright : c.right.strict = true)
      (h' : Complaint true v.last' v.ahead' ⟨line, .redeclared name⟩) (hQ : Q x x v) :
      Lockstep c v (Pass.note n >>= fun _ => Pure.pure x) (Pass.fail line (.redeclared name)) Q
  | finish {v : View c} {Q : Unit → Unit → View c → Prop} (hends : c.ends)
      (heof : v.ahead.kind = .eof) (hQ : Q () () v) :
      Lockstep c v (emit .finish) (emit .finish) Q

/-- Both passes have the same result, which is as required. -/
abbrev Gives {α : Type} (P : α → Prop) : α → α → View c → Prop := fun x x' _ => x' = x ∧ P x

/-- Both passes have the same result. -/
abbrev Agrees {α : Type} : α → α → View c → Prop := Gives fun _ => True

variable {α β : Type} {v w : View c} {P : α → Prop} {Q : α → α → View c → Prop}
  {R : β → β → View c → Prop}

theorem Lockstep.mono {p : PassOn δ ε α} {p' : PassOn δ' ε' α} (h : Lockstep c v p p' Q)
    {Q' : α → α → View c → Prop} (hQ : ∀ x x' w, Q x x' w → Q' x x' w) :
    Lockstep c v p p' Q' := by
  induction h with
  | pure hx h => exact .pure hx (hQ _ _ _ h)
  | bind hp _ _ ihf => exact hp.bind fun x x' w hR => ihf x x' w hR hQ
  | current h => exact .current (hQ _ _ _ h)
  | next hne htakes h => exact .next hne htakes fun t t' hlike => hQ _ _ _ (h t t' hlike)
  | line hl h => exact .line hl (hQ _ _ _ h)
  | note hn h => exact .note hn (hQ _ _ _ h)
  | showTable hl h => exact .showTable hl (hQ _ _ _ h)
  | fail h h' hfault hline => exact .fail h h' hfault hline
  | cut hleft hright h' h => exact .cut hleft hright h' (hQ _ _ _ h)
  | finish hends heof h => exact .finish hends heof (hQ _ _ _ h)

/-- Two steps, of which the first has the same result in both passes. -/
theorem Lockstep.then {p : PassOn δ ε α} {p' : PassOn δ' ε' α} {f : α → PassOn δ ε β}
    {f' : α → PassOn δ' ε' β} (hp : Lockstep c v p p' (Gives P))
    (hf : ∀ x w, P x → Lockstep c w (f x) (f' x) R) : Lockstep c v (p >>= f) (p' >>= f') R := by
  refine hp.bind fun x x' w hx => ?_
  obtain ⟨rfl, hx⟩ := hx
  exact hf x' w hx

theorem lockstep_pure {x : α} (hx : P x) : Lockstep c v (pure x) (pure x) (Gives P) :=
  .pure (fun _ => rfl) ⟨rfl, hx⟩

theorem lockstep_entering (h : c.enters) {p : PassOn δ ε α} {p' : PassOn δ' ε' α}
    (hp : Lockstep c v p p' Q) (site : Site) (bound : Nat) :
    Lockstep c v (entering site bound p) (entering site bound p') Q := by
  rw [c.unwatched h, c.unwatched' h]
  exact hp

/-! ### Looking ahead -/

theorem lockstep_current_bind {f : Token → PassOn δ ε α} {f' : Token → PassOn δ' ε' α}
    (h : Lockstep c v (f v.ahead) (f' v.ahead') Q) :
    Lockstep c v (current >>= f) (current >>= f') Q := by
  refine .bind (R := fun t t' w => t = v.ahead ∧ t' = v.ahead' ∧ w = v)
    (.current ⟨rfl, rfl, rfl⟩) ?_
  rintro _ _ _ ⟨rfl, rfl, rfl⟩
  exact h

/-- A look at something that both tokens ahead have in common. -/
theorem lockstep_look_bind {γ : Type} (look : Token → γ) {f : γ → PassOn δ ε α}
    {f' : γ → PassOn δ' ε' α} (hsame : c.same → look v.ahead' = look v.ahead)
    (h : Lockstep c v (f (look v.ahead)) (f' (look v.ahead')) Q) :
    Lockstep c v ((current >>= fun t => pure (look t)) >>= f)
      ((current >>= fun t => pure (look t)) >>= f') Q := by
  refine .bind (R := fun y y' w => y = look v.ahead ∧ y' = look v.ahead' ∧ w = v)
    (lockstep_current_bind (.pure hsame ⟨rfl, rfl, rfl⟩)) ?_
  rintro _ _ _ ⟨rfl, rfl, rfl⟩
  exact h

theorem lockstep_line_bind {f : Nat → PassOn δ ε α} {f' : Nat → PassOn δ' ε' α}
    (h : Lockstep c v (f v.ahead.line) (f' v.ahead'.line) Q) :
    Lockstep c v (line >>= f) (line >>= f') Q :=
  lockstep_look_bind Token.line v.line_of_same h

theorem lockstep_symbol?_bind {f : Option Symbol → PassOn δ ε α}
    {f' : Option Symbol → PassOn δ' ε' α}
    (h : Lockstep c v (f v.ahead.kind.symbol?) (f' v.ahead.kind.symbol?) Q) :
    Lockstep c v (symbol? >>= f) (symbol? >>= f') Q :=
  lockstep_look_bind (fun t => t.kind.symbol?) (fun _ => v.symbol?) (v.symbol?.symm ▸ h)

theorem lockstep_keyword?_bind {f : Option Keyword → PassOn δ ε α}
    {f' : Option Keyword → PassOn δ' ε' α}
    (h : Lockstep c v (f v.ahead.kind.keyword?) (f' v.ahead.kind.keyword?) Q) :
    Lockstep c v (keyword? >>= f) (keyword? >>= f') Q :=
  lockstep_look_bind (fun t => t.kind.keyword?) (fun _ => v.keyword?) (v.keyword?.symm ▸ h)

theorem lockstep_atBlockEnd : Lockstep c v atBlockEnd atBlockEnd Agrees := by
  refine lockstep_current_bind ?_
  obtain heq | ⟨value, digits, digits', heq', heq⟩ := v.kinds
  · rw [heq]
    split <;> exact lockstep_pure trivial
  · rw [heq, heq']
    exact lockstep_pure trivial

/-! ### Complaining -/

theorem lockstep_complain {fault fault' : Fault}
    (h : Complaint c.left.strict v.last v.ahead ⟨v.ahead.line, fault⟩)
    (h' : Complaint c.right.strict v.last' v.ahead' ⟨v.ahead'.line, fault'⟩)
    (hfault : fault'.essence = fault.essence) (hsame : c.same → fault' = fault) :
    Lockstep c v (complain fault) (complain fault') Q :=
  lockstep_line_bind (.fail h h' hfault fun hs => ⟨v.line_of_same hs, hsame hs⟩)

theorem lockstep_unexpected (what : String) :
    Lockstep c v (unexpected what) (unexpected what) Q := by
  refine lockstep_current_bind (lockstep_complain (.unexpected what) (.unexpected what) ?_ ?_)
  · exact congrArg (Fault.expected what) v.like.essence
  · intro hs
    rw [v.like.eq_of_same hs]

theorem lockstep_tooManyArguments :
    Lockstep c v (complain .tooManyArguments) (complain .tooManyArguments) Q :=
  lockstep_complain .tooManyArguments .tooManyArguments rfl fun _ => rfl

/-! ### Driving the device -/

theorem lockstep_emit_bind {l : Line} {f : Unit → PassOn δ ε α} {f' : Unit → PassOn δ' ε' α}
    (hl : c.genuine → l.Legible) (h : Lockstep c v (f ()) (f' ()) Q) :
    Lockstep c v (emit (.line l) >>= f) (emit (.line l) >>= f') Q := by
  refine .bind (R := fun _ _ w => w = v) (.line hl rfl) ?_
  rintro _ _ _ rfl
  exact h

theorem lockstep_write_bind {i : Instruction} {f : Unit → PassOn δ ε α}
    {f' : Unit → PassOn δ' ε' α} (hi : c.genuine → i.Legible)
    (h : Lockstep c v (f ()) (f' ()) Q) : Lockstep c v (write i >>= f) (write i >>= f') Q :=
  lockstep_emit_bind hi h

theorem lockstep_write {i : Instruction} (hi : c.genuine → i.Legible) :
    Lockstep c v (write i) (write i) Agrees := .line hi ⟨rfl, trivial⟩

theorem lockstep_note_bind {n n' : Note} {f : Unit → PassOn δ ε α} {f' : Unit → PassOn δ' ε' α}
    (hn : c.same → n' = n) (h : Lockstep c v (f ()) (f' ()) Q) :
    Lockstep c v (note n >>= f) (note n' >>= f') Q := by
  refine .bind (R := fun _ _ w => w = v) (.note hn rfl) ?_
  rintro _ _ _ rfl
  exact h

theorem lockstep_writeAll {code : List Instruction} {Q : Unit → Unit → View c → Prop}
    (hcode : c.genuine → ∀ i ∈ code, i.Legible) (hQ : Q () () v) :
    Lockstep c v (writeAll code) (writeAll code) Q := by
  induction code with
  | nil => exact .pure (fun _ => rfl) hQ
  | cons i code ih =>
    have hcons := fun hg => List.forall_mem_cons.mp (hcode hg)
    exact lockstep_write_bind (fun hg => (hcons hg).1) (ih fun hg => (hcons hg).2)

theorem lockstep_writeAll_bind {code : List Instruction} {f : Unit → PassOn δ ε α}
    {f' : Unit → PassOn δ' ε' α} (hcode : c.genuine → ∀ i ∈ code, i.Legible)
    (h : Lockstep c v (f ()) (f' ()) Q) :
    Lockstep c v (writeAll code >>= f) (writeAll code >>= f') Q := by
  refine .bind (R := fun _ _ w => w = v) (lockstep_writeAll hcode rfl) ?_
  rintro _ _ _ rfl
  exact h

/-! ### Reading -/

theorem lockstep_next_bind {f : Token → PassOn δ ε α} {f' : Token → PassOn δ' ε' α}
    (hne : v.ahead.kind ≠ .eof) (htakes : c.takes v.ahead.kind)
    (h : ∀ w : View c, w.last = some v.ahead → w.last' = some v.ahead' →
      Lockstep c w (f v.ahead) (f' v.ahead') Q) :
    Lockstep c v (next >>= f) (next >>= f') Q := by
  refine .bind (R := fun t t' w => t = v.ahead ∧ t' = v.ahead' ∧ w.last = some v.ahead ∧
    w.last' = some v.ahead') (.next hne htakes fun _ _ _ => ⟨rfl, rfl, rfl, rfl⟩) ?_
  rintro _ _ w ⟨rfl, rfl, hlast, hlast'⟩
  exact h w hlast hlast'

theorem lockstep_accept_bind {k : TokenKind} {f : Bool → PassOn δ ε α} {f' : Bool → PassOn δ' ε' α}
    (hne : k ≠ .eof) (hk : ∀ value digits, k ≠ .integer value digits) (htakes : c.takes k)
    (hyes : ∀ w, Lockstep c w (f true) (f' true) Q) (hno : Lockstep c v (f false) (f' false) Q) :
    Lockstep c v (accept k >>= f) (accept k >>= f') Q := by
  refine .bind (R := fun y y' w => y' = y ∧ (y = false → w = v)) ?_ ?_
  · refine lockstep_current_bind ?_
    by_cases h : v.ahead.kind = k
    · rw [if_pos h, if_pos (v.kind_eq hk h)]
      exact lockstep_next_bind (h ▸ hne) (h ▸ htakes) fun w _ _ =>
        .pure (fun _ => rfl) ⟨rfl, by simp⟩
    · rw [if_neg h, if_neg (v.kind_ne hk h)]
      exact .pure (fun _ => rfl) ⟨rfl, fun _ => rfl⟩
  · rintro _ y w ⟨rfl, hw⟩
    cases y with
    | true => exact hyes w
    | false => exact hw rfl ▸ hno

theorem lockstep_expect {k : TokenKind} (hne : k ≠ .eof)
    (hk : ∀ value digits, k ≠ .integer value digits) (htakes : c.takes k) :
    Lockstep c v (do let _ ← expect k) (do let _ ← expect k) Agrees := by
  refine .bind (R := fun _ _ _ => True) (lockstep_current_bind ?_) fun _ _ _ _ =>
    lockstep_pure trivial
  by_cases h : v.ahead.kind = k
  · rw [if_pos h, if_pos (v.kind_eq hk h)]
    exact .next (h ▸ hne) (h ▸ htakes) fun _ _ _ => trivial
  · rw [if_neg h, if_neg (v.kind_ne hk h)]
    exact lockstep_unexpected _

theorem lockstep_keyword (k : Keyword) (htakes : c.takes (.keyword k)) :
    Lockstep c v (keyword k) (keyword k) Agrees := lockstep_expect (by simp) (by simp) htakes

theorem lockstep_finish (hends : c.ends) :
    Lockstep c v finish finish fun _ _ w => w.ahead.kind = .eof := by
  refine lockstep_current_bind ?_
  by_cases h : v.ahead.kind = .eof
  · rw [if_pos h, if_pos (v.kind_eq (by simp) h)]
    exact .finish hends h h
  · rw [if_neg h, if_neg (v.kind_ne (by simp) h)]
    exact lockstep_unexpected _

end Pass

end Jack
