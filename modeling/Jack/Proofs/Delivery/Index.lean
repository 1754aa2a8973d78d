import Jack.Proofs.Delivery.Sink
import Jack.Proofs.Token.Calls
import Jack.Reader

/-!
# A reader as an index

A reader with a collector does what an index into the list of tokens would do. Requests that look
ahead leave the index where it is, requests that take the current token move it by one and tell the
collector, and the last token is never left. Where scanning meets a problem, this goes on up to the
request that would take the last token before the problem: it is answered with the problem.

1. `Request.effect` says what a request comes to at the token ahead, and a reader looks at nothing
   else (`Request.operation_eq`).
2. `Index.step` is the index at work, and `Index.reader` is the reader that stands at it. A request
   takes both from like to like (`serve_reader`), or it meets the problem (`serve_of_leaves`).
3. So do any number of requests (`serveAll_reader`, `reader_refines_index`).
-/

namespace Jack

/-! ## Requests -/

namespace Reader

/-- What may be asked of a reader. -/
inductive Request where
  | peek
  | next
  /-- Take a symbol or keyword if it is ahead. -/
  | accept (kind : TokenKind)
  /-- Take a symbol or keyword or complain. -/
  | expect (kind : TokenKind)
  | expectName
  | atBlockEnd
  | finish
  deriving DecidableEq, Repr

/-- What a reader answers. -/
inductive Response where
  | token (t : Token)
  | truth (b : Bool)
  | name (text : String)
  | done
  deriving DecidableEq, Repr

/-- What a request comes to: an answer without a step, a step over the current token, a complaint
about what was expected, or the end of the unit. -/
inductive Effect where
  | look (response : Response)
  | take (response : Response)
  | refuse (expected : String)
  | conclude
  deriving DecidableEq, Repr

namespace Request

/-- The operation that a request calls for. -/
def operation {σ : Type} : Request → PassOn (Devices σ) Error Response
  | peek => Response.token <$> Pass.current
  | next => Response.token <$> Pass.next
  | accept kind => Response.truth <$> Pass.accept kind
  | expect kind => Response.token <$> Pass.expect kind
  | expectName => Response.name <$> Pass.expectName
  | atBlockEnd => Response.truth <$> Pass.atBlockEnd
  | finish => (fun _ => Response.done) <$> Pass.finish

/-- What a request comes to if the given token is ahead. -/
def effect (t : Token) : Request → Effect
  | peek => .look (.token t)
  | next => .take (.token t)
  | accept kind => if t.kind = kind then .take (.truth true) else .look (.truth false)
  | expect kind =>
    if t.kind = kind then .take (.token t) else .refuse ("'" ++ kind.lexeme ++ "'")
  | expectName =>
    match t.kind with
    | .identifier text => .take (.name text)
    | _ => .refuse "identifier"
  | atBlockEnd => .look (.truth (t.kind = .symbol .rightBrace ∨ t.kind = .eof))
  | finish => if t.kind = .eof then .conclude else .refuse "end of input"

end Request

/-- The complaint that something else than the given token was expected. -/
def complaint (expected : String) (t : Token) : Problem := ⟨t.line, .expected expected t.kind⟩

section Operations

variable {σ α β : Type} {reader : Reader σ}

/-- Tell of the current token and go on to the next one. -/
def stepOver (t : Token) (a : α) : PassOn (Devices σ) Error α := do
  Pass.emit (.token t)
  Pass.move
  return a

/-- What an effect makes a reader do. -/
def Effect.operation (t : Token) : Effect → PassOn (Devices σ) Error Response
  | look response => return response
  | take response => stepOver t response
  | refuse expected => fun reader =>
    .error (.source ((complaint expected t).inUnit reader.device.unit)) reader
  | conclude => do
    Pass.emit .finish
    return .done

theorem map_next (f : Token → α) (reader : Reader σ) :
    (f <$> Pass.next) reader = stepOver reader.tokens.current (f reader.tokens.current) reader := by
  show (f <$> stepOver reader.tokens.current reader.tokens.current) reader = _
  simp only [stepOver, map_bind, map_pure]

theorem map_next_bind (f : α → β) (a : α) (reader : Reader σ) :
    (f <$> do let _ ← Pass.next; return a) reader =
      stepOver reader.tokens.current (f a) reader := by
  rw [bind_pure_comp, Functor.map_map]
  exact map_next _ reader

/-- An operation that depends on a condition comes to what its branches come to. -/
theorem map_ite {f : α → Response} {c : Prop} [Decidable c] {p q : PassOn (Devices σ) Error α}
    {t : Token} {yes no : Effect} (hp : (f <$> p) reader = yes.operation t reader)
    (hq : (f <$> q) reader = no.operation t reader) :
    (f <$> if c then p else q) reader = (if c then yes else no).operation t reader := by
  split
  · exact hp
  · exact hq

/-- An operation looks at the current token and at nothing else. -/
theorem Request.operation_eq (request : Request) (reader : Reader σ) : request.operation reader =
    (request.effect reader.tokens.current).operation reader.tokens.current reader := by
  cases request with
  | peek => rfl
  | next => exact map_next _ reader
  | accept kind =>
    show (Response.truth <$> if reader.tokens.current.kind = kind
      then do let _ ← Pass.next; return true else return false : PassOn (Devices σ) Error _) _ = _
    exact map_ite (map_next_bind _ _ reader) rfl
  | expect kind =>
    show (Response.token <$> if reader.tokens.current.kind = kind then Pass.next
      else Pass.unexpected ("'" ++ kind.lexeme ++ "'") : PassOn (Devices σ) Error _) _ = _
    exact map_ite (map_next _ reader) rfl
  | expectName =>
    obtain ⟨⟨⟨kind, line⟩, pending⟩, devices⟩ := reader
    cases kind with
    | identifier text => exact map_next_bind Response.name text _
    | _ => rfl
  | atBlockEnd =>
    obtain ⟨⟨⟨kind, line⟩, pending⟩, devices⟩ := reader
    cases kind with
    | symbol y => cases y <;> rfl
    | _ => rfl
  | finish =>
    show ((fun _ => Response.done) <$> if reader.tokens.current.kind = .eof then Pass.emit .finish
      else Pass.unexpected "end of input" : PassOn (Devices σ) Error _) _ = _
    refine map_ite ?_ rfl
    rw [map_eq_pure_bind]
    rfl

theorem perform_of_ok {operation : PassOn (Devices σ) Error α} {a : α} {after : Reader σ}
    (h : operation reader = .ok a after) : reader.perform operation = (.ok a, after) := by
  rw [perform, h]

theorem perform_of_error {operation : PassOn (Devices σ) Error α} {e : Error} {after : Reader σ}
    (h : operation reader = .error e after) : reader.perform operation = (.error e, after) := by
  rw [perform, h]

end Operations

/-- Answer a request. -/
def serve {σ : Type} (reader : Reader σ) (request : Request) :
    Except Error Response × Reader σ :=
  reader.perform request.operation

/-- Answer requests in order. -/
def serveAll {σ : Type} (reader : Reader σ) :
    List Request → List (Except Error Response) × Reader σ
  | [] => ([], reader)
  | request :: requests =>
    ((reader.serve request).1 :: ((reader.serve request).2.serveAll requests).1,
      ((reader.serve request).2.serveAll requests).2)

end Reader

/-! ## The tokens of a scan -/

/-- The answers of a scan are its tokens and what follows them: nothing, if they go on to the end of
the input, or else a problem and all that is found after it. -/
structure Splits (answers : List Scanned) (ts : List Token) (rest : List Scanned) : Prop where
  append : answers = ts.map .ok ++ rest
  isEof_iff : ∀ p : Fin ts.length, (ts.get p).isEof = true ↔ rest = [] ∧ p + 1 = ts.length
  nonempty : rest = [] → ts ≠ []
  problem : rest ≠ [] → ∃ e later, rest = .error e :: later

theorem splits_eof (line : Nat) : Splits [.ok ⟨.eof, line⟩] [⟨.eof, line⟩] [] where
  append := rfl
  isEof_iff p := by simp [Token.isEof, TokenKind.isEof]
  nonempty _ := List.cons_ne_nil _ _
  problem h := absurd rfl h

theorem splits_error (e : Problem) (later : List Scanned) :
    Splits (.error e :: later) [] (.error e :: later) where
  append := rfl
  isEof_iff p := p.elim0
  nonempty h := absurd h (List.cons_ne_nil _ _)
  problem _ := ⟨e, later, rfl⟩

theorem Splits.cons {answers rest : List Scanned} {ts : List Token} {t : Token}
    (h : Splits answers ts rest) (ht : t.isEof = false) :
    Splits (.ok t :: answers) (t :: ts) rest where
  append := congrArg _ h.append
  isEof_iff p := by
    cases p using Fin.cases with
    | zero =>
      have hlength : rest = [] → 0 + 1 ≠ (t :: ts).length := fun hrest hone =>
        h.nonempty hrest (List.length_eq_zero_iff.mp (Nat.succ.inj hone).symm)
      simpa [ht] using hlength
    | succ p => simpa using h.isEof_iff p
  nonempty _ := List.cons_ne_nil _ _
  problem := h.problem

theorem exists_splits (source : String) : ∃ ts rest, Splits (scan source) ts rest := by
  obtain ⟨before, line, hscan, hbefore⟩ := (Cursor.start source).exists_answers
  rw [scan, hscan]
  clear hscan
  induction before with
  | nil => exact ⟨_, _, splits_eof line⟩
  | cons answer before ih =>
    obtain ⟨hanswer, hrest⟩ := List.forall_mem_cons.mp hbefore
    cases answer with
    | error e => exact ⟨_, _, splits_error e _⟩
    | ok t =>
      obtain ⟨ts, rest, h⟩ := ih hrest
      exact ⟨t :: ts, rest, h.cons hanswer⟩

/-! ## The index -/

/-- A place in a list of tokens, the tokens that the collector has been told of, and how often it
has been told of the end of the unit. -/
structure Index (ts : List Token) where
  place : Fin ts.length
  told : List Token
  finished : Nat

namespace Index

variable {ts : List Token}

/-- The first token. -/
def start (ts : List Token) (h : 0 < ts.length) : Index ts := ⟨⟨0, h⟩, [], 0⟩

/-- The token at the index. -/
def current (i : Index ts) : Token := ts.get i.place

/-- Tell of the current token and go on to the next one, if there is one. -/
def move (i : Index ts) : Index ts where
  place := ⟨min (i.place.val + 1) (ts.length - 1), by have := i.place.isLt; omega⟩
  told := i.told ++ [i.current]
  finished := i.finished

/-- Answer a request. -/
def step (unit : String) (i : Index ts) (request : Reader.Request) :
    Except Error Reader.Response × Index ts :=
  match request.effect i.current with
  | .look response => (.ok response, i)
  | .take response => (.ok response, i.move)
  | .refuse expected => (.error (.source ((Reader.complaint expected i.current).inUnit unit)), i)
  | .conclude => (.ok .done, { i with finished := i.finished + 1 })

/-- Answer requests in order. -/
def stepAll (unit : String) (i : Index ts) :
    List Reader.Request → List (Except Error Reader.Response) × Index ts
  | [] => ([], i)
  | request :: requests =>
    ((i.step unit request).1 :: ((i.step unit request).2.stepAll unit requests).1,
      ((i.step unit request).2.stepAll unit requests).2)

/-- The request would leave the last token. -/
def Leaves (i : Index ts) (request : Reader.Request) : Prop :=
  i.place + 1 = ts.length ∧ ∃ response, request.effect i.current = .take response

/-- None of the requests would leave the last token. -/
def Stays (unit : String) (i : Index ts) : List Reader.Request → Prop
  | [] => True
  | request :: requests => ¬ i.Leaves request ∧ (i.step unit request).2.Stays unit requests

/-- The stream that stands at the index. -/
def stream (answers : List Scanned) (i : Index ts) : TokenStream :=
  ⟨i.current, answers.drop (i.place + 1)⟩

/-- The collector of an index. -/
def collector (i : Index ts) : Collector := ⟨none, i.told.toArray, i.finished⟩

/-- The reader that stands at the index. -/
def reader (unit : String) (answers : List Scanned) (i : Index ts) : Reader Collector :=
  Reader.attach unit (i.stream answers) Collector.sink i.collector

section Step

variable {answers rest : List Scanned} {unit : String} {i j : Index ts} {e : Problem}
  {later : List Scanned} {request : Reader.Request}

/-- The stream is given by the place. -/
theorem stream_congr (h : i.place = j.place) : i.stream answers = j.stream answers := by
  rw [stream, stream, current, current, h]

theorem val_move : i.move.place.val = min (i.place.val + 1) (ts.length - 1) := rfl

theorem move_of_last (h : i.place + 1 = ts.length) : i.move.place = i.place := by
  ext
  rw [val_move]
  omega

theorem isEof_current_iff (h : Splits answers ts rest) :
    i.current.isEof = true ↔ rest = [] ∧ i.place + 1 = ts.length :=
  h.isEof_iff i.place

/-- Inside the list the stream goes on to the next token. -/
theorem advance_of_lt (h : Splits answers ts rest) (hplace : i.place + 1 < ts.length) :
    (i.stream answers).advance = (none, i.move.stream answers) := by
  have hcurrent : (i.stream answers).current.isEof = false := by
    rw [← Bool.not_eq_true]
    exact fun heof => hplace.ne ((isEof_current_iff h).mp heof).2
  have hpending : (i.stream answers).pending =
      .ok (ts.get ⟨i.place + 1, hplace⟩) :: answers.drop (i.place + 1 + 1) := by
    have hlt : i.place + 1 < answers.length := by
      rw [h.append, List.length_append, List.length_map]
      omega
    rw [stream, List.drop_eq_getElem_cons hlt]
    simp [h.append, List.getElem_append_left, hplace]
  have hmove : i.move.place = ⟨i.place + 1, hplace⟩ := by
    ext
    rw [val_move, Nat.min_eq_left (Nat.le_sub_one_of_lt hplace)]
  have hstream : i.move.stream answers =
      ⟨ts.get ⟨i.place + 1, hplace⟩, answers.drop (i.place + 1 + 1)⟩ := by
    rw [stream, current, hmove]
  rw [TokenStream.advance, if_neg (by simp [hcurrent]), hpending, hstream]

/-- At the end of the input it stays. -/
theorem advance_of_end (h : Splits answers ts []) (hplace : i.place + 1 = ts.length) :
    (i.stream answers).advance = (none, i.move.stream answers) := by
  rw [TokenStream.advance_of_isEof ((isEof_current_iff h).mpr ⟨rfl, hplace⟩),
    stream_congr (move_of_last hplace)]

/-- Past the last token before a problem it meets the problem. -/
theorem advance_of_problem (h : Splits answers ts (.error e :: later))
    (hplace : i.place + 1 = ts.length) :
    (i.stream answers).advance = (some e, ⟨i.current, later⟩) := by
  have hcurrent : (i.stream answers).current.isEof = false := by
    rw [← Bool.not_eq_true]
    exact fun heof => List.cons_ne_nil _ _ ((isEof_current_iff h).mp heof).1
  have hpending : (i.stream answers).pending = .error e :: later := by
    rw [stream, h.append, hplace, List.drop_left' (List.length_map _)]
  rw [TokenStream.advance, if_neg (by simp [hcurrent]), hpending]
  rfl

theorem operation_of_effect {effect : Reader.Effect} (h : request.effect i.current = effect) :
    request.operation (i.reader unit answers) =
      effect.operation i.current (i.reader unit answers) :=
  h ▸ request.operation_eq _

/-- The collector hears of the token that is left. -/
theorem stepOver_reader {α : Type} (a : α) :
    Reader.stepOver i.current a (i.reader unit answers) =
      (do Pass.move; return a : PassOn (Devices Collector) Error α)
        (Reader.attach unit (i.stream answers) Collector.sink i.move.collector) := by
  have hmove : i.move.collector = ⟨none, i.told.toArray.push i.current, i.finished⟩ := by
    simp [collector, move]
  rw [hmove]
  rfl

theorem move_of_none {reader : Reader Collector} {after : TokenStream}
    (h : reader.tokens.advance = (none, after)) :
    Pass.move reader = .ok () { reader with tokens := after } := by
  simp only [Pass.move, h]

theorem move_of_some {reader : Reader Collector} {after : TokenStream}
    (h : reader.tokens.advance = (some e, after)) :
    Pass.move reader =
      .error (.source (e.inUnit reader.device.unit)) { reader with tokens := after } := by
  simp only [Pass.move, h]
  rfl

/-- One request takes the reader at an index to the reader at the next one. -/
theorem serve_reader (h : Splits answers ts rest) (hstay : rest = [] ∨ ¬ i.Leaves request) :
    (i.reader unit answers).serve request =
      ((i.step unit request).1, (i.step unit request).2.reader unit answers) := by
  cases heffect : request.effect i.current with
  | look response =>
    have hstep : i.step unit request = (.ok response, i) := by rw [step, heffect]
    rw [hstep]
    exact Reader.perform_of_ok (operation_of_effect heffect)
  | take response =>
    have hstep : i.step unit request = (.ok response, i.move) := by rw [step, heffect]
    have hadvance : (i.stream answers).advance = (none, i.move.stream answers) := by
      obtain hlt | hlast := Nat.lt_or_eq_of_le (Nat.succ_le_of_lt i.place.isLt)
      · exact advance_of_lt h hlt
      · obtain rfl | hstay := hstay
        · exact advance_of_end h hlast
        · exact absurd ⟨hlast, response, heffect⟩ hstay
    rw [hstep]
    refine Reader.perform_of_ok ((operation_of_effect heffect).trans ((stepOver_reader _).trans ?_))
    exact Pass.bind_apply_ok (move_of_none hadvance)
  | refuse expected =>
    have hstep : i.step unit request =
        (.error (.source ((Reader.complaint expected i.current).inUnit unit)), i) := by
      rw [step, heffect]
    rw [hstep]
    exact Reader.perform_of_error (operation_of_effect heffect)
  | conclude =>
    have hstep : i.step unit request = (.ok .done, { i with finished := i.finished + 1 }) := by
      rw [step, heffect]
    rw [hstep]
    exact Reader.perform_of_ok (operation_of_effect heffect)

/-- A request that would leave the last token before a problem meets the problem. -/
theorem serve_of_leaves (h : Splits answers ts (.error e :: later)) (hleaves : i.Leaves request) :
    (i.reader unit answers).serve request = (.error (.source (e.inUnit unit)),
      { i.move.reader unit answers with tokens := ⟨i.current, later⟩ }) := by
  obtain ⟨hlast, response, heffect⟩ := hleaves
  refine Reader.perform_of_error ((operation_of_effect heffect).trans
    ((stepOver_reader _).trans ?_))
  exact Pass.bind_apply_error (move_of_some (advance_of_problem h hlast))

theorem serveAll_reader (h : Splits answers ts rest) {requests : List Reader.Request}
    (hstay : rest = [] ∨ i.Stays unit requests) :
    (i.reader unit answers).serveAll requests =
      ((i.stepAll unit requests).1, (i.stepAll unit requests).2.reader unit answers) := by
  induction requests generalizing i with
  | nil => rfl
  | cons request requests ih =>
    rw [Reader.serveAll, serve_reader h (hstay.imp_right And.left),
      ih (hstay.imp_right And.right)]
    rfl

end Step

end Index

/-! ## Refinement -/

theorem Splits.ofAnswers {answers rest : List Scanned} {ts : List Token}
    (h : Splits answers ts rest) (hlength : 0 < ts.length) :
    TokenStream.ofAnswers answers = .ok ((Index.start ts hlength).stream answers) := by
  cases ts with
  | nil => cases hlength
  | cons t ts =>
    rw [h.append]
    rfl

theorem Splits.ofAnswers_nil {answers rest : List Scanned} (h : Splits answers [] rest) :
    ∃ e later, rest = .error e :: later ∧ TokenStream.ofAnswers answers = .error e := by
  obtain ⟨e, later, hrest⟩ := h.problem fun hrest => h.nonempty hrest rfl
  refine ⟨e, later, hrest, ?_⟩
  rw [h.append, hrest]
  rfl

theorem Splits.lexical {source : String} {ts : List Token} {e : Problem} {later : List Scanned}
    (h : Splits (scan source) ts (.error e :: later)) : e.fault.category = .lexical := by
  have hmem : .error e ∈ scan source := by
    rw [h.append]
    exact List.mem_append_right _ List.mem_cons_self
  exact Cursor.lexical_of_mem_answers hmem

/-- **Refinement.** The answers of a scan are tokens up to the end of the input or up to a lexical
problem. A reader starts at the first of the tokens, if there is one. Whatever it is asked then, it
answers as an index into these tokens does, and stands at the token of the index with the collector
of the index. What it has yet to read is what the scanner answers after one call more than the index
says. If there is a problem, this holds up to the request that would leave the last token before it.
That request is answered with the problem: the token has been told of, but it stays the current one,
and the scanner has gone past the problem. -/
theorem reader_refines_index (unit source : String) :
    (∃ ts rest, Splits (scan source) ts rest) ∧
    (∀ n < (scan source).length,
      (scan source).drop n = ((Cursor.start source).after n).answers) ∧
    ∀ ts rest, Splits (scan source) ts rest →
      (ts = [] → ∃ e later, rest = .error e :: later ∧ e.fault.category = .lexical ∧
        TokenStream.ofSource source = .error e) ∧
      ∀ h : 0 < ts.length,
        TokenStream.ofSource source = .ok ((Index.start ts h).stream (scan source)) ∧
        ∀ requests, rest = [] ∨ (Index.start ts h).Stays unit requests →
          ((Index.start ts h).reader unit (scan source)).serveAll requests =
            (((Index.start ts h).stepAll unit requests).1,
              ((Index.start ts h).stepAll unit requests).2.reader unit (scan source)) ∧
          ∀ i, ((Index.start ts h).stepAll unit requests).2 = i →
            ∀ e later, rest = .error e :: later → ∀ request, i.Leaves request →
              e.fault.category = .lexical ∧
              (i.reader unit (scan source)).serve request =
                (.error (.source (e.inUnit unit)),
                  { i.move.reader unit (scan source) with tokens := ⟨i.current, later⟩ }) := by
  refine ⟨exists_splits source, fun n hn => Cursor.drop_answers hn, fun ts rest hsplits =>
    ⟨?_, fun h => ⟨hsplits.ofAnswers h, fun requests hstay =>
      ⟨Index.serveAll_reader hsplits hstay, ?_⟩⟩⟩⟩
  · rintro rfl
    obtain ⟨e, later, rfl, hstream⟩ := hsplits.ofAnswers_nil
    exact ⟨e, later, rfl, hsplits.lexical, hstream⟩
  · rintro i - e later rfl request hleaves
    exact ⟨hsplits.lexical, Index.serve_of_leaves hsplits hleaves⟩

/-- A name, and a number with a letter in it on the next line. -/
def nameThenProblem : String := "x\n9z"

theorem splits_nameThenProblem :
    Splits (scan nameThenProblem) [⟨.identifier "x", 1⟩]
      [.error ⟨2, .malformedInteger "9z"⟩, .ok ⟨.eof, 2⟩] := by
  have hscan : scan nameThenProblem =
      [.ok ⟨.identifier "x", 1⟩, .error ⟨2, .malformedInteger "9z"⟩, .ok ⟨.eof, 2⟩] := by
    decide +kernel
  rw [hscan]
  exact (splits_error _ _).cons rfl

/-- Requests that do not fit the name leave everything as it is, and the one that takes it meets the
problem on the next line. -/
theorem nameThenProblem_refines_index :
    ∃ reader : Reader Collector,
      TokenStream.ofSource nameThenProblem = .ok reader.tokens ∧
      reader.serveAll [.accept (.symbol .semicolon), .atBlockEnd, .finish] =
        ([.ok (.truth false), .ok (.truth false),
          .error (.source ⟨"A", 1, .expected "end of input" (.identifier "x")⟩)], reader) ∧
      (reader.serve .expectName).1 = .error (.source ⟨"A", 2, .malformedInteger "9z"⟩) ∧
      (reader.serve .expectName).2.tokens.current = ⟨.identifier "x", 1⟩ ∧
      (reader.serve .expectName).2.device.state.tokens = #[⟨.identifier "x", 1⟩] := by
  obtain ⟨-, -, hall⟩ := reader_refines_index "A" nameThenProblem
  obtain ⟨hstream, hrun⟩ := (hall _ _ splits_nameThenProblem).2 Nat.one_pos
  have hstays : (Index.start [⟨.identifier "x", 1⟩] Nat.one_pos).Stays "A"
      [.accept (.symbol .semicolon), .atBlockEnd, .finish] := by
    refine ⟨?_, ?_, ?_, trivial⟩ <;> rintro ⟨-, response, h⟩ <;> cases h
  obtain ⟨hserved, hmet⟩ := hrun _ (.inr hstays)
  obtain ⟨-, hproblem⟩ := hmet _ rfl _ _ rfl .expectName ⟨rfl, _, rfl⟩
  exact ⟨_, hstream, hserved, congrArg Prod.fst hproblem,
    congrArg (·.2.tokens.current) hproblem, congrArg (·.2.device.state.tokens) hproblem⟩

end Jack
