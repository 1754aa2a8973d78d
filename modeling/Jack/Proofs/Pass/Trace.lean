import Jack.Proofs.Pass.Supply

/-!
# Watching a pass

A `Tracer` is a device that keeps a journal and watches which functions are entered. For each entry
it notes the functions beneath which that happens, with the tokens used up at that point and the
bound that the function was given.

Most passes enter no function. On a tracer such a pass does what it does on a journal, and every
token that it uses up was to come before (`Pass.Leaf`).
-/

namespace Jack

namespace Pass

variable {α β : Type} {s s' s'' : State}

/-! ## Tracers -/

/-- The number of tokens in the journal, without the end of the input. -/
def usedIn (journal : Array Event) : Nat :=
  ((tokensOf journal.toList).filter fun t => !t.isEof).length

/-- The number of tokens consumed, without the end of the input. -/
def State.used (s : State) : Nat := usedIn s.device

/-- A function that has been entered: the tokens used up at that point, and the bound given. -/
structure CallFrame where
  site : Site
  used : Nat
  bound : Nat
  deriving DecidableEq, Repr

/-- A journal, the functions that have been entered and not been left, and all entries so far. Each
entry is a stack of frames: the one of the function entered, and after it those of the functions
beneath which that happens. -/
structure Tracer where
  journal : Array Event
  stack : List CallFrame
  entries : List (List CallFrame)

/-- The tracer on which a function has been entered. -/
def Tracer.enter (tracer : Tracer) (site : Site) (bound : Nat) : Tracer :=
  let stack := ⟨site, usedIn tracer.journal, bound⟩ :: tracer.stack
  { tracer with stack := stack, entries := tracer.entries ++ [stack] }

/-- The tracer on which the functions entered are again those of an earlier one. -/
def Tracer.leave (tracer earlier : Tracer) : Tracer := { tracer with stack := earlier.stack }

instance : Device Tracer Problem where
  report _ problem := problem
  handle event := modify fun tracer => { tracer with journal := tracer.journal.push event }
  watch site bound inside := fun s =>
    match inside { s with device := s.device.enter site bound } with
    | .ok x after => .ok x { after with device := after.device.leave s.device }
    | .error e after => .error e { after with device := after.device.leave s.device }

/-- The state on a tracer with the given functions and entries. -/
def State.traced (s : State) (stack : List CallFrame) (entries : List (List CallFrame)) :
    State Tracer := ⟨s.tokens, ⟨s.device, stack, entries⟩⟩

/-- The end of a pass on a tracer with the given functions and entries. -/
def tracedResult (r : EStateM.Result Problem State α) (stack : List CallFrame)
    (entries : List (List CallFrame)) : EStateM.Result Problem (State Tracer) α :=
  match r with
  | .ok x s => .ok x (s.traced stack entries)
  | .error e s => .error e (s.traced stack entries)

theorem tracedResult_injective {r r' : EStateM.Result Problem State α} {stack : List CallFrame}
    {entries entries' : List (List CallFrame)}
    (h : tracedResult r stack entries = tracedResult r' stack entries') : r = r' := by
  have hstate : ∀ {s s' : State}, s.traced stack entries = s'.traced stack entries' → s = s' := by
    rintro ⟨tokens, journal⟩ ⟨tokens', journal'⟩ h
    cases h
    rfl
  cases r with
  | ok x s =>
    cases r' with
    | ok x' s' =>
      obtain ⟨rfl, hs⟩ := EStateM.Result.ok.inj h
      rw [hstate hs]
    | error e s' => cases h
  | error e s =>
    cases r' with
    | ok x s' => cases h
    | error e' s' =>
      obtain ⟨rfl, hs⟩ := EStateM.Result.error.inj h
      rw [hstate hs]

/-- A function on a tracer does what is inside of it, on the stack with its own frame. -/
theorem entering_traced {t : PassOn Tracer Problem α} {r : EStateM.Result Problem State α}
    {s : State} {site : Site} {bound : Nat} {stack : List CallFrame}
    {entries entries' : List (List CallFrame)}
    (h : t (s.traced (⟨site, s.used, bound⟩ :: stack)
        (entries ++ [⟨site, s.used, bound⟩ :: stack])) =
      tracedResult r (⟨site, s.used, bound⟩ :: stack) entries') :
    entering site bound t (s.traced stack entries) = tracedResult r stack entries' := by
  have hinside : t { s.traced stack entries with
      device := (s.traced stack entries).device.enter site bound } =
        tracedResult r (⟨site, s.used, bound⟩ :: stack) entries' := h
  unfold entering
  simp only [Device.watch]
  rw [hinside]
  cases r <;> rfl

theorem handleAll_tracer (es : List Event) (tracer : Tracer) :
    (handleAll es : EStateM Problem Tracer Unit) tracer =
      .ok () { tracer with journal := tracer.journal ++ es } := by
  induction es generalizing tracer with
  | nil => simp [handleAll, pure, EStateM.pure]
  | cons event es ih =>
    show handleAll es { tracer with journal := tracer.journal.push event } = _
    rw [ih]
    simp

/-! ## Moving on -/

/-- The number of tokens that are still to come. -/
def State.left (s : State) : Nat := s.tokens.supply.length

/-- Every token that is used up was to come before. -/
structure Moves (s s' : State) : Prop where
  total : s'.used + s'.left = s.used + s.left
  used : s.used ≤ s'.used

theorem Moves.refl (s : State) : Moves s s := ⟨rfl, le_rfl⟩

theorem Moves.trans (h : Moves s s') (h' : Moves s' s'') : Moves s s'' :=
  ⟨h'.total.trans h.total, h.used.trans h'.used⟩

theorem Does.moves {strict : Bool} {p : Pass α} {r : Except Problem α} {b : TokenStream}
    {ts : List Token} (h : Does strict p s.tokens r b ts) {x : α} (hok : p s = .ok x s') :
    Moves s s' := by
  obtain ⟨s'', hp, rfl, htaken⟩ := h.ends s rfl
  cases r with
  | error e => cases hp.symm.trans hok
  | ok y =>
    cases hp.symm.trans hok
    have hahead := h.covers.ahead_eq
    have hsupply : s.left = ts.length + s'.left := by
      rw [State.left, TokenStream.supply_of_ahead hahead, List.length_append,
        ← TokenStream.supply_eq_leading_ahead]
      rfl
    have hts : (ts.filter fun t => !t.isEof) = ts := by
      refine List.filter_eq_self.mpr fun t ht => ?_
      have hmem : .ok t ∈ s.tokens.ahead := hahead ▸ List.mem_append_left _ (List.mem_map_of_mem ht)
      simpa [Cursor.isEnd] using (TokenStream.mem_ahead hmem).2
    have hused : s'.used = s.used + ts.length := by
      rw [State.taken] at htaken
      rw [State.used, usedIn, htaken, List.filter_append, List.length_append, hts]
      rfl
    exact ⟨by omega, by omega⟩

/-- Reading a token uses it up. -/
theorem Moves.used_lt (h : Moves s s') {k : TokenKind} {ks : List TokenKind} {out : List Line}
    (hwent : Went s (k :: ks) out s') : s.used < s'.used := by
  have htotal := h.total
  have hleft := TokenStream.length_supply_of_reads hwent.reads
  rw [List.length_cons] at hleft
  unfold State.left at htotal
  omega

/-! ## Passes that enter no function -/

/-- On a tracer the first pass does what the second does on a journal, and enters no function. The
second moves on where it succeeds. -/
structure Leaf (t : PassOn Tracer Problem α) (p : Pass α) : Prop where
  traced : ∀ s stack entries, t (s.traced stack entries) = tracedResult (p s) stack entries
  moves : ∀ {s x s'}, p s = .ok x s' → Moves s s'

theorem Leaf.bind {t : PassOn Tracer Problem α} {p : Pass α} {f : α → PassOn Tracer Problem β}
    {g : α → Pass β} (ht : Leaf t p) (hf : ∀ x, Leaf (f x) (g x)) : Leaf (t >>= f) (p >>= g) := by
  constructor
  · intro s stack entries
    have htraced := ht.traced s stack entries
    cases hp : p s with
    | ok x s' =>
      rw [hp] at htraced
      rw [bind_apply_ok htraced, bind_apply_ok hp]
      exact (hf x).traced s' stack entries
    | error e s' =>
      rw [hp] at htraced
      rw [bind_apply_error htraced, bind_apply_error hp]
      rfl
  · intro s y s'' hok
    obtain ⟨x, s', hp, hg⟩ := bind_ok.mp hok
    exact (ht.moves hp).trans ((hf x).moves hg)

/-- Passes that leave the state as it is. -/
theorem leaf_of_still {t : PassOn Tracer Problem α} {p : Pass α}
    (ht : ∀ s stack entries, t (s.traced stack entries) = tracedResult (p s) stack entries)
    (hp : ∀ {s x s'}, p s = .ok x s' → s' = s) : Leaf t p :=
  ⟨ht, fun hok => hp hok ▸ Moves.refl _⟩

theorem leaf_pure (x : α) : Leaf (pure x) (pure x) :=
  leaf_of_still (fun _ _ _ => rfl) fun hok => (pure_ok.mp hok).2.symm

theorem leaf_complain (fault : Fault) :
    Leaf (complain fault : PassOn Tracer Problem α) (complain fault) :=
  leaf_of_still (fun _ _ _ => rfl) fun hok => absurd hok not_complain_ok

theorem leaf_unexpected (what : String) :
    Leaf (unexpected what : PassOn Tracer Problem α) (unexpected what) :=
  leaf_of_still (fun _ _ _ => rfl) fun hok => absurd hok not_unexpected_ok

theorem leaf_scope (context : Context) : Leaf (scope context) (scope context) := by
  unfold scope
  cases context.subroutine with
  | some subroutine => exact leaf_pure subroutine
  | none => exact leaf_complain _

theorem leaf_label (context : Context) (mark : Mark) (number : Nat) :
    Leaf (label context mark number) (label context mark number) :=
  (leaf_scope context).bind fun _ => leaf_pure _

/-- The end of the input is not counted, so it does not matter if it is consumed. -/
theorem leaf_next : Leaf next next := by
  constructor
  · intro s stack entries
    have htraced := (plays_next (δ := Tracer) (a := s.tokens)).ok (handleAll_tracer _
      ⟨s.device, stack, entries⟩)
    have hplays := (plays_next (δ := Array Event) (a := s.tokens)).ok (handleAll_journal _ s.device)
    rw [State.traced, htraced, hplays]
    cases s.tokens.advance.1 <;> rfl
  · intro s t s' hok
    by_cases heof : s.tokens.current.kind = .eof
    · have hend : s.tokens.current.isEof = true := by rwa [Token.isEof, TokenKind.isEof_iff]
      have hplays := (plays_next (δ := Array Event) (a := s.tokens)).ok
        (handleAll_journal _ s.device)
      rw [TokenStream.advance_of_isEof hend] at hplays
      cases hplays.symm.trans hok
      have hused : State.used ⟨s.tokens, s.device ++ [Event.token s.tokens.current]⟩ = s.used := by
        simp [State.used, usedIn, tokensOf, Event.token?, hend]
      exact ⟨by rw [hused]; rfl, hused.ge⟩
    · obtain ⟨b, hdoes⟩ | ⟨e, b, -, hdoes⟩ := @does_next s.tokens false heof
      · exact hdoes.moves hok
      · exact hdoes.moves hok

/-- The contract of a pass that enters no function: on a journal and on a tracer. -/
def leafContract (options : Options) : Contract (Array Event) Problem Tracer Problem :=
  .sharing options True False False.elim False.elim

/-- Passes in lockstep, if a token is given that may be taken for the one consumed last. -/
theorem leaf_of_lockstep (options : Options) {t : PassOn Tracer Problem α} {p : Pass α}
    {Q : α → α → View (leafContract options) → Prop} (last : Option Token)
    (h : ∀ v : View (leafContract options), v.last = last → v.last' = last →
      Lockstep (leafContract options) v p t Q) : Leaf t p := by
  have hcourse : ∀ a : TokenStream, ∃ r b es, Plays p a r b es ∧ Plays t a r b es ∧
      Covers options.strict a r b (tokensOf es) := by
    intro a
    let v : View (leafContract options) :=
      ⟨last, last, a.current, a.current, Contract.like_refl False.elim⟩
    obtain ⟨r, b, es, hcourse⟩ := (h v rfl rfl).course trivial rfl rfl False.elim
    obtain ⟨es', hplays, -, hes⟩ | ⟨⟨hlax, hstrict⟩, -⟩ := hcourse.follows
    · obtain rfl := hes rfl
      exact ⟨r, b, es', hcourse.plays, hplays, hcourse.account.covers⟩
    · exact absurd (hlax.symm.trans hstrict) (by simp)
  constructor
  · intro s stack entries
    obtain ⟨r, b, es, hp, ht, -⟩ := hcourse s.tokens
    rw [State.traced, ht.ok (handleAll_tracer es ⟨s.device, stack, entries⟩),
      hp.ok (handleAll_journal es s.device)]
    cases r <;> rfl
  · intro s x s' hok
    obtain ⟨r, b, es, hp, -, hcovers⟩ := hcourse s.tokens
    exact Does.moves ⟨⟨es, hp, rfl⟩, hcovers⟩ hok

section Leaves

theorem leaf_write (i : Instruction) : Leaf (write i) (write i) :=
  leaf_of_lockstep {} none fun _ _ _ => lockstep_write False.elim

theorem leaf_writeAll (code : List Instruction) : Leaf (writeAll code) (writeAll code) :=
  leaf_of_lockstep {} none fun _ _ _ =>
    lockstep_writeAll (Q := fun _ _ _ => True) False.elim trivial

theorem leaf_note (n : Note) : Leaf (note n) (note n) :=
  leaf_of_lockstep {} none fun _ _ _ => .note (Q := fun _ _ _ => True) (fun _ => rfl) trivial

theorem leaf_showTable (options : Options) (title : String) (table : Table) :
    Leaf (showTable options title table) (showTable options title table) :=
  leaf_of_lockstep options none fun _ _ _ =>
    .showTable (Q := fun _ _ _ => True) False.elim trivial

theorem leaf_atBlockEnd : Leaf atBlockEnd atBlockEnd :=
  leaf_of_lockstep {} none fun _ _ _ => lockstep_atBlockEnd

theorem leaf_punctuation (y : Symbol) : Leaf (punctuation y) (punctuation y) :=
  leaf_of_lockstep {} none fun _ _ _ => lockstep_punctuation (fun _ _ => trivial) y

theorem leaf_keyword (k : Keyword) : Leaf (keyword k) (keyword k) :=
  leaf_of_lockstep {} none fun _ _ _ => lockstep_keyword k trivial

theorem leaf_expectName : Leaf expectName expectName :=
  leaf_of_lockstep {} none fun _ _ _ => lockstep_expectName fun _ _ => trivial

theorem leaf_typeName : Leaf typeName typeName :=
  leaf_of_lockstep {} none fun _ _ _ => lockstep_typeName fun _ => trivial

theorem leaf_finish : Leaf finish finish :=
  leaf_of_lockstep {} none fun _ _ _ => lockstep_finish trivial

theorem leaf_enter (className name : String) (kind : SubroutineKind) :
    Leaf (enter className name kind) (enter className name kind) :=
  leaf_of_lockstep {} none fun _ _ _ => lockstep_enter kind False.elim False.elim

theorem leaf_callee (context : Context) (name : String) (line : Nat) :
    Leaf (callee context name line) (callee context name line) :=
  leaf_of_lockstep {} none fun _ _ _ =>
    lockstep_callee (fun _ _ => trivial) False.elim False.elim fun _ => rfl

theorem leaf_stringConstant (characters : String) :
    Leaf (stringConstant characters) (stringConstant characters) :=
  leaf_of_lockstep {} (some ⟨.string characters, 0⟩) fun _ hlast hlast' =>
    lockstep_stringConstant hlast hlast'

theorem leaf_accept {k : TokenKind} (hne : k ≠ .eof)
    (hk : ∀ value digits, k ≠ .integer value digits) : Leaf (accept k) (accept k) := by
  have h : Leaf (accept k >>= pure) (accept k >>= pure) :=
    leaf_of_lockstep {} none fun _ _ _ => lockstep_accept_bind hne hk trivial
      (Q := fun _ _ _ => True) (fun _ => .pure (fun _ => rfl) trivial)
      (.pure (fun _ => rfl) trivial)
  simpa using h

theorem leaf_variableNamed (context : Context) (name : String) (line : Nat) :
    Leaf (variableNamed context name line) (variableNamed context name line) := by
  have h : Leaf (variableNamed context name line >>= pure)
      (variableNamed context name line >>= pure) :=
    leaf_of_lockstep {} (some ⟨.identifier name, line⟩) fun _ hlast hlast' =>
      lockstep_variableNamed_bind hlast hlast' (fun _ => rfl) fun _ =>
        .pure (Q := fun _ _ _ => True) (fun _ => rfl) trivial
  simpa using h

theorem leaf_declaredName (options : Options) (type : String) (kind : VariableKind)
    (context : Context) :
    Leaf (declaredName options type kind context) (declaredName options type kind context) := by
  refine Leaf.bind (leaf_of_still (fun _ _ _ => rfl) fun hok => ?_) fun line =>
    leaf_expectName.bind fun name => ?_
  · cases hok
    rfl
  unfold declare
  cases context.table? kind with
  | none => exact leaf_complain _
  | some table =>
    by_cases hredeclared : (options.strict && table.contains name) = true
    · simp only [hredeclared, if_true]
      exact leaf_of_still (fun _ _ _ => rfl) fun hok => absurd hok not_fail_ok
    · simp only [hredeclared]
      exact (leaf_note _).bind fun _ => leaf_pure _

end Leaves

end Pass

end Jack
