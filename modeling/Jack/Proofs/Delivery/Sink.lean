import Jack.Proofs.Delivery.Devices
import Jack.Proofs.Pass.Supply

/-!
# What a sink is told

A compilation calls the sink as it goes. Lines and notes pass it by, so it hears of the tokens
consumed and, if the compilation succeeds, of the end of the unit.

1. `Run.heard` are the calls that a sink gets during a run (`hearAll_run`).
2. The sink takes them all and the result is that of `compile`, or it refuses one of them and that
   is the result (`compileWith_of_heard_ok`, `compileWith_of_heard_error`).
3. So it matters only how a sink answers (`sink_observes`). `Sink.Accepts` and `Sink.RefusesFrom`
   are the sinks that never refuse and those that refuse from a given token on.
-/

namespace Jack

variable {σ : Type} {sink : Sink σ} {state : σ} {events : List Event}

/-! ## Telling a sink -/

namespace Sink

/-- Tell a sink of tokens in order, up to its first refusal. -/
def tell (sink : Sink σ) (tokens : List Token) : EStateM String σ Unit :=
  sink.hearAll (tokens.map .token)

/-- Before the end of the unit a sink hears of tokens only. -/
theorem hearAll_eq_tell (h : Event.finish ∉ events) :
    sink.hearAll events = sink.tell (events.filterMap Event.token?) := by
  induction events with
  | nil => rfl
  | cons event events ih =>
    obtain ⟨hne, hrest⟩ := not_or.mp (List.mem_cons.not.mp h)
    rw [hearAll, ih hrest]
    cases event with
    | token | line | note => rfl
    | finish => exact absurd rfl hne

end Sink

/-- What a run tells a sink: the tokens consumed, and the end of the unit unless there is a
problem. -/
def Run.heard (r : Run) : List Event :=
  r.tokens.map .token ++ if r.problem = none then [.finish] else []

theorem hearAll_run (options : Options) (source : String) :
    sink.hearAll (run options source).events.toList =
      sink.hearAll (run options source).heard := by
  unfold Run.heard
  cases hproblem : (run options source).problem with
  | some e =>
    rw [Sink.hearAll_eq_tell (finish_notMem_of_problem hproblem), if_neg (by simp),
      List.append_nil]
    rfl
  | none =>
    obtain ⟨before, hevents, hbefore⟩ := exists_finish_of_none hproblem
    have htokens : (run options source).tokens = before.filterMap Event.token? := by
      simp [Run.tokens, hevents, Event.token?]
    rw [hevents, Sink.hearAll_append, Sink.hearAll_eq_tell hbefore, ← htokens, if_pos rfl,
      Sink.hearAll_append]
    rfl

section Compile

variable {options : Options} {unit source : String} {after : σ}

/-- A sink that takes what it hears leaves the result as it is. -/
theorem compileWith_of_heard_ok (h : sink.hearAll (run options source).heard state = .ok () after) :
    compileWith options sink state unit source = (compile options unit source, after) := by
  rw [compileWith_of_hearAll_ok (hearAll_run options source ▸ h), compile_eq_outcome]

/-- The refusal of a sink is the result. -/
theorem compileWith_of_heard_error {failure : String}
    (h : sink.hearAll (run options source).heard state = .error failure after) :
    compileWith options sink state unit source = (.error (.io failure), after) :=
  compileWith_of_hearAll_error (hearAll_run options source ▸ h)

end Compile

/-! ## Sinks that answer as announced -/

namespace Sink

/-- Started in the given state the calls of the sink succeed. -/
structure Accepts (sink : Sink σ) (state : σ) : Prop where
  token : ∀ ts, ∃ after, sink.tell ts state = .ok () after
  finish : ∀ {ts after}, sink.tell ts state = .ok () after → ∃ last, sink.finish after = .ok () last

/-- Started in the given state the sink takes a number of tokens, and the end of the unit after any
of them, but refuses the token that follows these. -/
structure RefusesFrom (sink : Sink σ) (n : Nat) (state : σ) : Prop where
  token : ∀ ts, ts.length ≤ n → ∃ after, sink.tell ts state = .ok () after
  finish : ∀ {ts after}, ts.length ≤ n → sink.tell ts state = .ok () after →
    ∃ last, sink.finish after = .ok () last
  refusal : ∀ {ts after}, ts.length = n → sink.tell ts state = .ok () after →
    ∀ t, ∃ failure last, sink.token t after = .error failure last

end Sink

section Answer

variable {options : Options} {unit source : String} {between : σ}

/-- A sink that takes the tokens of a run and the end of the unit after them takes the run. -/
theorem exists_hearAll_heard {r : Run} (htokens : sink.tell r.tokens state = .ok () between)
    (hfinish : ∃ last, sink.finish between = .ok () last) :
    ∃ last, sink.hearAll r.heard state = .ok () last := by
  rw [Run.heard, Sink.hearAll_append_of_ok htokens]
  obtain ⟨last, hlast⟩ := hfinish
  split
  · exact ⟨last, Sink.hearAll_cons_of_ok hlast⟩
  · exact ⟨between, rfl⟩

theorem Sink.Accepts.exists_hearAll (h : sink.Accepts state) (r : Run) :
    ∃ last, sink.hearAll r.heard state = .ok () last := by
  obtain ⟨between, hbetween⟩ := h.token r.tokens
  exact exists_hearAll_heard hbetween (h.finish hbetween)

/-- A sink that refuses a token of a run after it has taken those before refuses the run. -/
theorem hearAll_heard_of_refusal {r : Run} {n : Nat} (hn : n < r.tokens.length)
    {failure : String} {last : σ}
    (hbefore : sink.tell (r.tokens.take n) state = .ok () between)
    (hrefusal : sink.token r.tokens[n] between = .error failure last) :
    sink.hearAll r.heard state = .error failure last := by
  have hsplit : r.heard = (r.tokens.take n).map .token ++ .token r.tokens[n] ::
      ((r.tokens.drop (n + 1)).map .token ++ if r.problem = none then [.finish] else []) := by
    rw [Run.heard, ← List.cons_append, ← List.map_cons, ← List.drop_eq_getElem_cons hn,
      ← List.append_assoc, ← List.map_append, List.take_append_drop]
  rw [hsplit, Sink.hearAll_append_of_ok hbefore]
  exact Sink.hearAll_cons_of_error hrefusal

end Answer

/-! ## The collector -/

/-- What a collector without a limit has collected after a compilation. -/
def collected (options : Options) (unit source : String) : Collector :=
  (compileWith options Collector.sink { limit := none } unit source).2

/-- The calls that a collector has got. -/
def Collector.calls (c : Collector) : List Event :=
  c.tokens.toList.map .token ++ List.replicate c.finished .finish

/-- A collector with room for some tokens keeps them. -/
theorem Collector.tell_of_room {ts : List Token} {limit : Option Nat} {tokens : Array Token}
    {finished : Nat} (h : ∀ n ∈ limit, tokens.size + ts.length ≤ n) :
    Collector.sink.tell ts ⟨limit, tokens, finished⟩ =
      .ok () ⟨limit, tokens ++ ts, finished⟩ := by
  induction ts generalizing tokens with
  | nil => simp [Sink.tell, Sink.hearAll, pure, EStateM.pure]
  | cons t ts ih =>
    have hroom : (limit.any fun n => n ≤ tokens.size) = false := by
      cases limit with
      | none => rfl
      | some n =>
        have hn := h n rfl
        rw [List.length_cons] at hn
        simpa using (by omega : tokens.size < n)
    have hhear : Collector.sink.hear (.token t) ⟨limit, tokens, finished⟩ =
        .ok () ⟨limit, tokens.push t, finished⟩ := by
      simp [Sink.hear, Collector.sink, Collector.receive, hroom]
    have hrest : ∀ n ∈ limit, (tokens.push t).size + ts.length ≤ n := by
      intro n hn
      have hle := h n hn
      rw [List.length_cons] at hle
      rw [Array.size_push]
      omega
    rw [Sink.tell, List.map_cons, Sink.hearAll_cons_of_ok hhear]
    exact (ih hrest).trans (by simp)

theorem Collector.hear_finish (c : Collector) :
    Collector.sink.hear .finish c = .ok () { c with finished := c.finished + 1 } := rfl

theorem Collector.accepts : Collector.sink.Accepts { limit := none } where
  token _ := ⟨_, Collector.tell_of_room (by simp)⟩
  finish _ := ⟨_, rfl⟩

theorem Collector.token_of_full {c : Collector} {n : Nat} (hlimit : c.limit = some n)
    (h : n ≤ c.tokens.size) (t : Token) :
    Collector.sink.token t c = .error Collector.full c := by
  simp [Collector.sink, Collector.receive, hlimit, h]

/-- A collector with a limit refuses from there on. -/
theorem Collector.refusesFrom (n : Nat) : Collector.sink.RefusesFrom n { limit := some n } where
  token ts hts := ⟨_, Collector.tell_of_room (by simpa using hts)⟩
  finish _ _ := ⟨_, rfl⟩
  refusal {ts after} hts htell t := by
    rw [Collector.tell_of_room (by simp [hts])] at htell
    cases htell
    exact ⟨Collector.full, _, Collector.token_of_full rfl (by simp [hts]) t⟩

theorem Collector.eq_full_of_error {t : Token} {c last : Collector} {failure : String}
    (h : Collector.sink.token t c = .error failure last) : failure = Collector.full := by
  change Collector.receive t c = .error failure last at h
  unfold Collector.receive at h
  split at h <;> cases h
  rfl

theorem collected_eq (options : Options) (unit source : String) :
    collected options unit source = ⟨none, (run options source).tokens.toArray,
      if (run options source).problem = none then 1 else 0⟩ := by
  have hheard : Collector.sink.hearAll (run options source).heard { limit := none } =
      .ok () ⟨none, (run options source).tokens.toArray,
        if (run options source).problem = none then 1 else 0⟩ := by
    rw [Run.heard, Sink.hearAll_append_of_ok (Collector.tell_of_room (by simp))]
    split
    · rw [Sink.hearAll_cons_of_ok (Collector.hear_finish _)]
      simp [Sink.hearAll, pure, EStateM.pure]
    · simp [Sink.hearAll, pure, EStateM.pure]
  rw [collected, compileWith_of_heard_ok hheard]

/-- The collector gets the calls that any sink gets. -/
theorem calls_collected (options : Options) (unit source : String) :
    (collected options unit source).calls = (run options source).heard := by
  rw [collected_eq, Collector.calls, Run.heard]
  split <;> rfl

/-! ## Observation -/

/-- **Observation.** The tokens collected are those that scanning finds before the end of the input,
followed by one end of the unit, if the compilation succeeds. Otherwise they are some first ones of
the text, and the end of the unit is not announced. Every sink gets the calls that the collector
gets, up to its first refusal. If it refuses nothing the result is that without a sink; if it
refuses from a token on, that holds when the token is not reached, and otherwise the refusal is the
result. -/
theorem sink_observes (options : Options) (unit source : String) :
    (∀ text, compile options unit source = .ok text →
      (collected options unit source).finished = 1 ∧
      ∃ line, scan source =
        (collected options unit source).tokens.toList.map .ok ++ [.ok ⟨.eof, line⟩]) ∧
    (∀ e, compile options unit source = .error e →
      (collected options unit source).finished = 0 ∧
      (collected options unit source).tokens.toList <+: sourceTokens source) ∧
    ∀ (σ : Type) (sink : Sink σ) (state : σ),
      (sink.Accepts state → ∃ last,
        compileWith options sink state unit source = (compile options unit source, last) ∧
        sink.hearAll (collected options unit source).calls state = .ok () last) ∧
      ∀ n, sink.RefusesFrom n state →
        ((collected options unit source).tokens.size ≤ n →
          (compileWith options sink state unit source).1 = compile options unit source) ∧
        ∀ h : n < (collected options unit source).tokens.size, ∃ before failure last,
          sink.tell ((collected options unit source).tokens.toList.take n) state =
            .ok () before ∧
          sink.token (collected options unit source).tokens[n] before = .error failure last ∧
          compileWith options sink state unit source = (.error (.io failure), last) := by
  simp only [calls_collected]
  simp only [collected_eq, List.size_toArray, List.getElem_toArray]
  refine ⟨fun text h => ?_, fun e h => ?_, fun σ sink state =>
    ⟨fun hsink => ?_, fun n hsink => ⟨fun hn => ?_, fun hn => ?_⟩⟩⟩
  · obtain ⟨hproblem, -⟩ := compile_ok_iff.mp h
    exact ⟨if_pos hproblem, scan_of_run hproblem⟩
  · obtain ⟨e', hproblem, -⟩ := compile_error_iff.mp h
    exact ⟨if_neg (by simp [hproblem]), isPrefix_sourceTokens options source⟩
  · obtain ⟨last, hlast⟩ := hsink.exists_hearAll (run options source)
    exact ⟨last, compileWith_of_heard_ok hlast, hlast⟩
  · obtain ⟨between, hbetween⟩ := hsink.token (run options source).tokens hn
    obtain ⟨last, hlast⟩ := exists_hearAll_heard hbetween (hsink.finish hn hbetween)
    rw [compileWith_of_heard_ok hlast]
  · have hlength : ((run options source).tokens.take n).length = n := by
      rw [List.length_take, Nat.min_eq_left hn.le]
    obtain ⟨before, hbefore⟩ := hsink.token _ hlength.le
    obtain ⟨failure, last, hrefusal⟩ := hsink.refusal hlength hbefore (run options source).tokens[n]
    refine ⟨before, failure, last, hbefore, hrefusal, compileWith_of_heard_error ?_⟩
    exact hearAll_heard_of_refusal hn hbefore hrefusal

/-- The refusal of the third of four tokens is the result. -/
theorem sink_observes_two_tokens :
    Collector.sink.RefusesFrom 2 { limit := some 2 } ∧
    (collected ⟨false, false⟩ "A" "class A \x7b \x7d").tokens.size = 4 ∧
    (compileWith ⟨false, false⟩ Collector.sink { limit := some 2 } "A" "class A \x7b \x7d").1 =
      .error (.io Collector.full) := by
  have hsink := Collector.refusesFrom 2
  have hsize : (collected ⟨false, false⟩ "A" "class A \x7b \x7d").tokens.size = 4 := by
    decide +kernel
  obtain ⟨-, -, hall⟩ := sink_observes ⟨false, false⟩ "A" "class A \x7b \x7d"
  obtain ⟨before, failure, last, -, hrefusal, hresult⟩ :=
    ((hall Collector Collector.sink _).2 2 hsink).2 (by omega)
  refine ⟨hsink, hsize, ?_⟩
  rw [hresult, Collector.eq_full_of_error hrefusal]

end Jack
