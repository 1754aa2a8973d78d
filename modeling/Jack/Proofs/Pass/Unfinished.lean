import Jack.Proofs.Pass.Sound
import Jack.Proofs.Token.Spelling

/-!
# Where a pass stops

A pass that stops at an unexpected token has read the beginning of a tree of the grammar, and the
rest of the tree can be chosen such that the tree meets the conditions on names and calls. The rest
is short: a missing term is `0`, a missing statement is left out, a missing name in a declaration is
one that is not declared yet.

There is one exception. After a `let` the name of a variable has to follow, and there may be none.
So a tree of statements is completed, but it is valid only if some name is declared (`Stuck`).

The lemmas on the operations of a pass are named `..._error`. A problem met by scanning is always a
further possibility. The number of tokens read is below `maxArguments`, because a call may not grow
without end.
-/

namespace Jack

/-- The problem is a token that the grammar does not call for. -/
def Problem.Unexpected (e : Problem) : Prop := ∃ what found, e.fault = .expected what found

open Environment (declares_of_find?)

namespace Pass

variable {α β : Type} {s s₁ s' : State} {e : Problem} {pre : List TokenKind}
  {P Q : List TokenKind → List TokenKind → Prop}

/-- The pass stopped where it began, or at a problem of the scan. -/
def StoppedAt (e : Problem) (s s' : State) : Prop := s.tokens.Meets e ∨ s' = s

/-- The pass stopped after tokens that have a completion as required, or at a problem of the
scan. -/
def Unfinished (e : Problem) (s s' : State) (P : List TokenKind → List TokenKind → Prop) : Prop :=
  s.tokens.Meets e ∨ ∃ ks, s.tokens.Reads ks s'.tokens ∧
    (ks.length < maxArguments → ∃ ls, (∀ k ∈ ls, k.WellFormed) ∧ P ks ls)

/-- The tokens read and those to come are together the tokens of something as required. -/
def Completes (Valid : α → Prop) (tokens : α → List TokenKind) (ks ls : List TokenKind) : Prop :=
  ∃ a, Valid a ∧ tokens a = ks ++ ls

/-- Stopping after some tokens. -/
theorem StoppedAt.unfinished (h : StoppedAt e s₁ s') (hpre : s.tokens.Reads pre s₁.tokens)
    (ls : List TokenKind) (hls : ∀ k ∈ ls, k.WellFormed) (hP : P pre ls) :
    Unfinished e s s' P := by
  obtain hmeets | rfl := h
  · exact .inl (hmeets.of_reads hpre)
  · exact .inr ⟨pre, hpre, fun _ => ⟨ls, hls, hP⟩⟩

/-- Stopping at the very beginning. -/
theorem StoppedAt.at_start (h : StoppedAt e s s') (ls : List TokenKind)
    (hls : ∀ k ∈ ls, k.WellFormed) (hP : P [] ls) : Unfinished e s s' P :=
  h.unfinished (TokenStream.reads_nil.mpr rfl) ls hls hP

/-- What is left open inside of something, with tokens before and after it. -/
theorem Unfinished.within (h : Unfinished e s₁ s' P) (hpre : s.tokens.Reads pre s₁.tokens)
    (post : List TokenKind) (hpost : ∀ k ∈ post, k.WellFormed)
    (hQ : ∀ {ks ls}, (pre ++ ks).length < maxArguments → P ks ls → Q (pre ++ ks) (ls ++ post)) :
    Unfinished e s s' Q := by
  obtain hmeets | ⟨ks, hks, hcomplete⟩ := h
  · exact .inl (hmeets.of_reads hpre)
  refine .inr ⟨pre ++ ks, hpre.append hks, fun hlength => ?_⟩
  have hlength' : ks.length < maxArguments := by
    rw [List.length_append] at hlength
    omega
  obtain ⟨ls, hls, hP⟩ := hcomplete hlength'
  exact ⟨ls ++ post, List.forall_mem_append.mpr ⟨hls, hpost⟩, hQ hlength hP⟩

theorem Unfinished.imp (h : Unfinished e s s' P) (hQ : ∀ {ks ls}, P ks ls → Q ks ls) :
    Unfinished e s s' Q := by
  obtain hmeets | ⟨ks, hks, hcomplete⟩ := h
  · exact .inl hmeets
  · refine .inr ⟨ks, hks, fun hlength => ?_⟩
    obtain ⟨ls, hls, hP⟩ := hcomplete hlength
    exact ⟨ls, hls, hQ hP⟩

/-! ## Operations -/

theorem unexpected_error {what : String} (h : (unexpected what : Pass α) s = .error e s') :
    StoppedAt e s s' := by
  cases h
  exact .inr rfl

theorem not_writeAll_error {code : List Instruction} : ¬ writeAll code s = .error e s' := by
  intro h
  cases (writeLines_eq _ s).symm.trans h

theorem meets_of_next_error (h : next s = .error e s') : s.tokens.Meets e :=
  ⟨[], s.tokens, rfl, next_error h⟩

theorem meets_of_accept_error {k : TokenKind} (h : accept k s = .error e s') :
    s.tokens.Meets e := by
  unfold accept at h
  rw [current_bind] at h
  split at h
  · obtain h | ⟨_, _, -, h⟩ := bind_error.mp h
    · exact meets_of_next_error h
    · cases h
  · cases h

theorem expect_error {k : TokenKind} (h : expect k s = .error e s') : StoppedAt e s s' := by
  unfold expect at h
  rw [current_bind] at h
  split at h
  · exact .inl (meets_of_next_error h)
  · exact unexpected_error h

theorem punctuation_error {y : Symbol} (h : punctuation y s = .error e s') : StoppedAt e s s' := by
  obtain h | ⟨_, _, -, h⟩ := bind_error.mp h
  · exact expect_error h
  · cases h

theorem keyword_error {w : Keyword} (h : keyword w s = .error e s') : StoppedAt e s s' := by
  obtain h | ⟨_, _, -, h⟩ := bind_error.mp h
  · exact expect_error h
  · cases h

theorem expectName_error (h : expectName s = .error e s') : StoppedAt e s s' := by
  unfold expectName at h
  rw [current_bind] at h
  generalize s.tokens.current.kind = k at h
  split at h
  · obtain h | ⟨_, _, -, h⟩ := bind_error.mp h
    · exact .inl (meets_of_next_error h)
    · cases h
  · exact unexpected_error h

/-- Something between two symbols, left open before it, in it or after it. -/
theorem between_error {p : Pass α} {opening closing : Symbol}
    (h : between opening closing p s = .error e s')
    (hstart : ∃ ls, (∀ k ∈ ls, k.WellFormed) ∧ Q [] ls)
    (hin : ∀ {s₁}, p s₁ = .error e s' → Unfinished e s₁ s' P)
    (hQ : ∀ {ks ls}, P ks ls → Q (.symbol opening :: ks) (ls ++ [.symbol closing]))
    (hend : ∀ {s₁ x s₂}, p s₁ = .ok x s₂ → ∃ ks, s₁.tokens.Reads ks s₂.tokens ∧
      Q (.symbol opening :: ks) [.symbol closing]) : Unfinished e s s' Q := by
  obtain hopen | ⟨_, s₁, hopen, h⟩ := bind_error.mp h
  · obtain ⟨ls, hls, hP⟩ := hstart
    exact (punctuation_error hopen).at_start ls hls hP
  have hread := (punctuation_ok hopen).reads
  obtain hfail | ⟨x, s₂, hok, h⟩ := bind_error.mp h
  · exact (hin hfail).within hread _ (by simp) fun _ => hQ
  obtain ⟨ks, hin, hP⟩ := hend hok
  obtain hclose | ⟨_, s₃, -, h⟩ := bind_error.mp h
  · exact (punctuation_error hclose).unfinished (hread.append hin) _ (by simp) hP
  · cases h

/-! ## Expressions -/

variable {context : Context} {bound : Nat}

theorem not_variableNamed_error {name : String} {l : Nat} (he : e.Unexpected) :
    ¬ variableNamed context name l s = .error e s' := by
  intro h
  unfold variableNamed at h
  obtain ⟨what, found, hfault⟩ := he
  cases hv : context.resolve? name with
  | some v =>
    simp only [hv] at h
    cases h
  | none =>
    simp only [hv] at h
    cases h
    cases hfault

theorem not_stringConstant_error {characters : String} (he : e.Unexpected) :
    ¬ stringConstant characters s = .error e s' := by
  intro h
  unfold stringConstant at h
  obtain ⟨what, found, hfault⟩ := he
  split at h
  · exact not_writeAll_error h
  · cases h
    cases hfault

theorem not_tooManyArguments (he : e.Unexpected) :
    ¬ (complain .tooManyArguments : Pass α) s = .error e s' := by
  intro h
  obtain ⟨what, found, hfault⟩ := he
  cases h
  cases hfault

theorem not_scope_error (he : e.Unexpected) : ¬ scope context s = .error e s' := by
  intro h
  unfold scope at h
  obtain ⟨what, found, hfault⟩ := he
  cases hsubroutine : context.subroutine with
  | some subroutine =>
    simp only [hsubroutine] at h
    cases h
  | none =>
    simp only [hsubroutine] at h
    cases h
    cases hfault

theorem not_label_error {mark : Mark} {number : Nat} (he : e.Unexpected) :
    ¬ label context mark number s = .error e s' := by
  intro h
  obtain h | ⟨_, s₁, -, h⟩ := bind_error.mp h
  · exact not_scope_error he h
  · cases h

theorem implicit_le_one (env : Environment) (receiver : Option String) :
    env.implicit receiver ≤ 1 := by
  unfold Environment.implicit
  split
  · omega
  · split <;> omega

/-- The name of a call has been read. The call is completed without arguments. -/
theorem callee_error {name : String} {l : Nat} (h : callee context name l s = .error e s') :
    Unfinished e s s' fun ks ls => ∃ receiver member,
      Call.headTokens receiver member ++ inParens [] = .identifier name :: (ks ++ ls) := by
  unfold callee at h
  rw [symbol?_bind] at h
  generalize hy : s.tokens.current.kind.symbol? = y at h
  split at h
  · obtain h | ⟨_, _, -, h⟩ := bind_error.mp h <;> cases h
  · have hk := TokenKind.symbol?_eq_some.mp hy
    obtain hnext | ⟨_, s₁, hnext, h⟩ := bind_error.mp h
    · exact .inl (meets_of_next_error hnext)
    have hdot := (next_ok hnext hk (by simp)).2
    obtain hname | ⟨member, s₂, hname, h⟩ := bind_error.mp h
    · exact (expectName_error hname).unfinished hdot.reads (.identifier "x" :: inParens [])
        (by decide) ⟨some name, "x", rfl⟩
    cases hv : context.resolve? name with
    | some v =>
      simp only [hv] at h
      obtain h | ⟨_, _, -, h⟩ := bind_error.mp h <;> cases h
    | none =>
      simp only [hv] at h
      obtain h | ⟨_, _, -, h⟩ := bind_error.mp h <;> cases h
  · exact (unexpected_error h).at_start (inParens []) (by decide) ⟨none, name, rfl⟩

/-- What is completed to arguments. There are at most one more than tokens have been read. -/
def ArgumentsOpen (env : Environment) (ks ls : List TokenKind) : Prop :=
  Completes (fun es => Call.ArgumentsValid env es ∧ es.length ≤ ks.length + 1)
    Call.argumentTokens ks ls

/-- What is completed to arguments after others, each with a comma that has been read. -/
def MoreArgumentsOpen (env : Environment) (ks ls : List TokenKind) : Prop :=
  Completes (fun es => Call.ArgumentsValid env es ∧ es.length ≤ ks.length) Call.moreTokens ks ls

/-- A call whose leading name has been read. -/
theorem call_error {arguments : Pass Nat} {name : String} {l : Nat} (he : e.Unexpected)
    (hok : ∀ {s count s'}, arguments s = .ok count s' → ReadsArguments context s count s')
    (herror : ∀ {s}, arguments s = .error e s' →
      Unfinished e s s' (ArgumentsOpen context.environment))
    (h : call context arguments name l s = .error e s') :
    Unfinished e s s' fun ks ls => ∃ c : Call, c.Valid context.environment ∧
      c.tokens = .identifier name :: (ks ++ ls) := by
  have hmax : maxArguments = 65535 := rfl
  unfold call at h
  obtain hcallee | ⟨⟨routine, implicit⟩, s₁, hcallee, h⟩ := bind_error.mp h
  · refine (callee_error hcallee).imp ?_
    rintro ks ls ⟨receiver, member, htokens⟩
    have himplicit := implicit_le_one context.environment receiver
    refine ⟨.mk receiver member [], ⟨trivial, ?_⟩, htokens⟩
    rw [List.length_nil]
    omega
  obtain ⟨receiver, member, ks, hks, -, rfl, hhead⟩ := callee_ok hcallee
  have himplicit := implicit_le_one context.environment receiver
  obtain hopen | ⟨_, s₂, hopen, h⟩ := bind_error.mp h
  · refine (punctuation_error hopen).unfinished hhead.reads (inParens []) (by decide)
      ⟨.mk receiver member [], ⟨trivial, ?_⟩, ?_⟩
    · rw [List.length_nil]
      omega
    · rw [Call.tokens, hks]
      rfl
  have hpre := hhead.trans (punctuation_ok hopen)
  obtain harguments | ⟨count, s₃, harguments, h⟩ := bind_error.mp h
  · refine (herror harguments).within hpre.reads [.symbol .rightParen] (by decide) ?_
    rintro ls ms hlength ⟨es, ⟨hvalid, hcount⟩, htokens⟩
    refine ⟨.mk receiver member es, ⟨hvalid, ?_⟩, ?_⟩
    · simp only [List.length_append, List.length_singleton] at hlength
      omega
    · simp [Call.tokens, enclosed, hks, htokens]
  obtain ⟨es, rfl, hvalid, hes⟩ := hok harguments
  by_cases hle : es.length + context.environment.implicit receiver ≤ maxArguments
  · simp only [hle] at h
    obtain hclose | ⟨_, s₄, hclose, h⟩ := bind_error.mp h
    · refine (punctuation_error hclose).unfinished (hpre.trans hes).reads
        [.symbol .rightParen] (by decide) ⟨.mk receiver member es, ⟨hvalid, by omega⟩, ?_⟩
      simp [Call.tokens, enclosed, hks]
    · cases h
  · simp only [hle] at h
    obtain h | ⟨_, s₄, h, -⟩ := bind_error.mp h
    · exact absurd h (not_tooManyArguments he)
    · exact absurd h not_complain_ok

/-- All functions on expressions can be completed where they stop, up to a bound of their
recursion. -/
structure ExpressionsOpen (context : Context) (bound : Nat) : Prop where
  term : ∀ {e s s'}, e.Unexpected → term context bound s = .error e s' →
    Unfinished e s s' (Completes (Term.Valid context.environment) Term.tokens)
  expression : ∀ {e s s'}, e.Unexpected → expression context bound s = .error e s' →
    Unfinished e s s' (Completes (Expression.Valid context.environment) Expression.tokens)
  operations : ∀ {e s s'}, e.Unexpected → operations context bound s = .error e s' →
    Unfinished e s s' (Completes (Expression.RestValid context.environment) Expression.restTokens)
  arguments : ∀ {e s s'}, e.Unexpected → arguments context bound s = .error e s' →
    Unfinished e s s' (ArgumentsOpen context.environment)
  moreArguments : ∀ {seen e s s'}, e.Unexpected → moreArguments context bound seen s = .error e s' →
    Unfinished e s s' (MoreArgumentsOpen context.environment)

/-- The term that stands for a missing one. -/
theorem completes_term (env : Environment) :
    Completes (Term.Valid env) Term.tokens [] [.integer 0 "0"] :=
  ⟨.integer 0 "0", trivial, rfl⟩

/-- The expression that stands for a missing one. -/
theorem completes_expression (env : Environment) :
    Completes (Expression.Valid env) Expression.tokens [] [.integer 0 "0"] :=
  ⟨.mk (.integer 0 "0") [], ⟨trivial, trivial⟩, rfl⟩

theorem unexpected_term_error (env : Environment)
    (h : (unexpected "term" : Pass α) s = .error e s') :
    Unfinished e s s' (Completes (Term.Valid env) Term.tokens) :=
  (unexpected_error h).at_start [.integer 0 "0"] (by decide) (completes_term env)

/-- A term that starts with a name, which has been read. -/
theorem named_error (ih : ExpressionsOpen context bound) {name : String} {l : Nat} {s₀ : State}
    (he : e.Unexpected) (hname : Went s₀ [.identifier name] [] s)
    (h : (symbol? >>= fun y => match y with
      | some .leftBracket => do
        let v ← variableNamed context name l
        let _ ← next
        write v.push
        expression context bound
        punctuation .rightBracket
        writeAll [.operate .add, .popTarget, .pushIndirect]
      | some .leftParen | some .dot =>
        entering .call bound (call context (arguments context bound) name l)
      | _ => do write (← variableNamed context name l).push) s = .error e s') :
    Unfinished e s₀ s' (Completes (Term.Valid context.environment) Term.tokens) := by
  have hcall : call context (arguments context bound) name l s = .error e s' →
      Unfinished e s₀ s' (Completes (Term.Valid context.environment) Term.tokens) := by
    intro h
    refine (call_error he (expressionsSound context bound).arguments (ih.arguments he) h).within
      hname.reads [] (by simp) ?_
    rintro ks ls - ⟨c, hvalid, htokens⟩
    exact ⟨.call c, hvalid, by simp [Term.tokens, htokens]⟩
  rw [symbol?_bind] at h
  generalize hy : s.tokens.current.kind.symbol? = y at h
  split at h
  · have hk := TokenKind.symbol?_eq_some.mp hy
    obtain h | ⟨v, s₁, hv, h⟩ := bind_error.mp h
    · exact absurd h (not_variableNamed_error he)
    obtain ⟨hfind, rfl⟩ := variableNamed_ok hv
    obtain hnext | ⟨_, s₂, hnext, h⟩ := bind_error.mp h
    · exact .inl ((meets_of_next_error hnext).of_reads hname.reads)
    obtain h | ⟨_, s₃, hwrite, h⟩ := bind_error.mp h
    · cases h
    have hpre := hname.trans ((next_ok hnext hk (by simp)).2.trans (write_ok hwrite))
    obtain hindex | ⟨_, s₄, hindex, h⟩ := bind_error.mp h
    · refine (ih.expression he hindex).within hpre.reads [.symbol .rightBracket] (by decide) ?_
      rintro ks ls - ⟨index, hvalid, htokens⟩
      exact ⟨.element name index, ⟨declares_of_find? hfind, hvalid⟩,
        by simp [Term.tokens, enclosed, htokens]⟩
    obtain ⟨index, hvalid, hread⟩ := (expressionsSound context bound).expression hindex
    obtain hclose | ⟨_, s₅, -, h⟩ := bind_error.mp h
    · exact (punctuation_error hclose).unfinished (hpre.trans hread).reads
        [.symbol .rightBracket] (by decide)
        ⟨.element name index, ⟨declares_of_find? hfind, hvalid⟩, by simp [Term.tokens, enclosed]⟩
    · cases h
  · exact hcall h
  · exact hcall h
  · obtain h | ⟨v, s₁, -, h⟩ := bind_error.mp h
    · exact absurd h (not_variableNamed_error he)
    · cases h

/-- A term with an operator in front. -/
theorem unary_error (ih : ExpressionsOpen context bound) (he : e.Unexpected) (op : UnaryOperator)
    (hk : s.tokens.current.kind = .symbol op.symbol)
    (h : (next >>= fun _ => term context bound >>= fun _ => write op.code) s = .error e s') :
    Unfinished e s s' (Completes (Term.Valid context.environment) Term.tokens) := by
  obtain h | ⟨_, s₁, hnext, h⟩ := bind_error.mp h
  · exact .inl (meets_of_next_error h)
  obtain h | ⟨_, s₂, -, h⟩ := bind_error.mp h
  · refine (ih.term he h).within (next_ok hnext hk (by simp)).2.reads [] (by simp) ?_
    rintro ks ls - ⟨t, hvalid, htokens⟩
    exact ⟨.unary op t, hvalid, by simp [Term.tokens, htokens]⟩
  · cases h

theorem term_succ_error (ih : ExpressionsOpen context bound) (he : e.Unexpected)
    (h : term context (bound + 1) s = .error e s') :
    Unfinished e s s' (Completes (Term.Valid context.environment) Term.tokens) := by
  rw [term, entering_eq] at h
  rw [current_bind] at h
  cases hk : s.tokens.current.kind with
  | integer value digits =>
    simp only [hk] at h
    obtain h | ⟨_, s₁, -, h⟩ := bind_error.mp h
    · exact .inl (meets_of_next_error h)
    · cases h
  | string characters =>
    simp only [hk] at h
    obtain h | ⟨_, s₁, -, h⟩ := bind_error.mp h
    · exact .inl (meets_of_next_error h)
    · exact absurd h (not_stringConstant_error he)
  | keyword w =>
    simp only [hk] at h
    cases hcode : keywordConstant? w with
    | some code =>
      simp only [hcode] at h
      obtain h | ⟨_, s₁, hwrite, h⟩ := bind_error.mp h
      · exact absurd h not_writeAll_error
      obtain h | ⟨_, s₂, -, h⟩ := bind_error.mp h
      · exact .inl ((meets_of_next_error h).of_reads (writeAll_ok hwrite).reads)
      · cases h
    | none =>
      simp only [hcode] at h
      exact unexpected_term_error _ h
  | identifier name =>
    simp only [hk] at h
    obtain h | ⟨_, s₁, hnext, h⟩ := bind_error.mp h
    · exact .inl (meets_of_next_error h)
    · exact named_error ih he (next_ok hnext hk (by simp)).2 h
  | symbol y =>
    simp only [hk] at h
    cases y with
    | leftParen =>
      refine between_error h ⟨[.integer 0 "0"], by decide, completes_term _⟩ (ih.expression he)
        ?_ ?_
      · rintro ks ls ⟨inner, hvalid, htokens⟩
        exact ⟨.parenthesized inner, hvalid, by simp [Term.tokens, enclosed, htokens]⟩
      · intro s₁ u s₂ hok
        obtain ⟨inner, hvalid, hread⟩ := (expressionsSound context bound).expression hok
        exact ⟨_, hread.reads, .parenthesized inner, hvalid, by simp [Term.tokens, enclosed]⟩
    | minus => exact unary_error ih he .neg hk h
    | tilde => exact unary_error ih he .not hk h
    | _ => exact unexpected_term_error _ h
  | eof =>
    simp only [hk] at h
    exact unexpected_term_error _ h

theorem expression_succ_error (ih : ExpressionsOpen context bound) (he : e.Unexpected)
    (h : expression context (bound + 1) s = .error e s') :
    Unfinished e s s' (Completes (Expression.Valid context.environment) Expression.tokens) := by
  rw [expression, entering_eq] at h
  obtain hterm | ⟨_, s₁, hterm, h⟩ := bind_error.mp h
  · refine (ih.term he hterm).imp ?_
    rintro ks ls ⟨t, hvalid, htokens⟩
    exact ⟨.mk t [], ⟨hvalid, trivial⟩, by simp [Expression.tokens, Expression.restTokens, htokens]⟩
  · obtain ⟨t, hvalid, hread⟩ := (expressionsSound context bound).term hterm
    refine (ih.operations he h).within hread.reads [] (by simp) ?_
    rintro ks ls - ⟨rest, hrest, htokens⟩
    exact ⟨.mk t rest, ⟨hvalid, hrest⟩, by simp [Expression.tokens, htokens]⟩

theorem operations_succ_error (ih : ExpressionsOpen context bound) (he : e.Unexpected)
    (h : operations context (bound + 1) s = .error e s') :
    Unfinished e s s'
      (Completes (Expression.RestValid context.environment) Expression.restTokens) := by
  rw [operations, entering_eq] at h
  rw [symbol?_bind] at h
  cases hop : s.tokens.current.kind.symbol?.bind binaryOperator? with
  | none =>
    simp only [hop] at h
    cases h
  | some i =>
    simp only [hop] at h
    obtain ⟨y, hy, hi⟩ := Option.bind_eq_some_iff.mp hop
    have hk := TokenKind.symbol?_eq_some.mp hy
    obtain ⟨op, rfl, rfl⟩ := exists_of_binaryOperator? hi
    obtain h | ⟨_, s₁, hnext, h⟩ := bind_error.mp h
    · exact .inl (meets_of_next_error h)
    have hop := (next_ok hnext hk (by simp)).2
    obtain hterm | ⟨_, s₂, hterm, h⟩ := bind_error.mp h
    · refine (ih.term he hterm).within hop.reads [] (by simp) ?_
      rintro ks ls - ⟨t, hvalid, htokens⟩
      exact ⟨[(op, t)], ⟨hvalid, trivial⟩, by simp [Expression.restTokens, htokens]⟩
    obtain ⟨t, hvalid, hread⟩ := (expressionsSound context bound).term hterm
    obtain h | ⟨_, s₃, hwrite, h⟩ := bind_error.mp h
    · cases h
    have hpre := hop.trans (hread.trans (write_ok hwrite))
    refine (ih.operations he h).within hpre.reads [] (by simp) ?_
    rintro ks ls - ⟨rest, hrest, htokens⟩
    exact ⟨(op, t) :: rest, ⟨hvalid, hrest⟩, by simp [Expression.restTokens, htokens]⟩

theorem arguments_succ_error (ih : ExpressionsOpen context bound) (he : e.Unexpected)
    (h : arguments context (bound + 1) s = .error e s') :
    Unfinished e s s' (ArgumentsOpen context.environment) := by
  rw [arguments, entering_eq] at h
  rw [symbol?_bind] at h
  split at h
  · cases h
  obtain hexp | ⟨_, s₁, hexp, h⟩ := bind_error.mp h
  · refine (ih.expression he hexp).imp ?_
    rintro ks ls ⟨e, hvalid, htokens⟩
    exact ⟨[e], ⟨⟨hvalid, trivial⟩, by simp⟩,
      by simp [Call.argumentTokens, Call.moreTokens, htokens]⟩
  · obtain ⟨e, hvalid, hread⟩ := (expressionsSound context bound).expression hexp
    refine (ih.moreArguments he h).within hread.reads [] (by simp) ?_
    rintro ks ls - ⟨es, ⟨hes, hcount⟩, htokens⟩
    refine ⟨e :: es, ⟨⟨hvalid, hes⟩, ?_⟩, by simp [Call.argumentTokens, htokens]⟩
    rw [List.length_cons, List.length_append]
    omega

theorem moreArguments_succ_error (ih : ExpressionsOpen context bound) {seen : Nat}
    (he : e.Unexpected) (h : moreArguments context (bound + 1) seen s = .error e s') :
    Unfinished e s s' (MoreArgumentsOpen context.environment) := by
  rw [moreArguments, entering_eq] at h
  obtain hcomma | ⟨found, s₁, hcomma, hthen⟩ := bind_error.mp h
  · exact .inl (meets_of_accept_error hcomma)
  obtain ⟨rfl, hread⟩ | ⟨rfl, -, rfl⟩ := accept_ok hcomma (by simp)
  · simp only [if_true] at hthen
    obtain hexp | ⟨_, s₂, hexp, h⟩ := bind_error.mp hthen
    · refine (ih.expression he hexp).within hread.reads [] (by simp) ?_
      rintro ks ls - ⟨e, hvalid, htokens⟩
      exact ⟨[e], ⟨⟨hvalid, trivial⟩, by simp⟩, by simp [Call.moreTokens, htokens]⟩
    obtain ⟨e, hvalid, hexpread⟩ := (expressionsSound context bound).expression hexp
    by_cases hle : seen + 1 ≤ maxArguments
    · simp only [hle] at h
      refine (ih.moreArguments he h).within (hread.trans hexpread).reads [] (by simp) ?_
      rintro ks ls - ⟨es, ⟨hes, hcount⟩, htokens⟩
      refine ⟨e :: es, ⟨⟨hvalid, hes⟩, ?_⟩, by simp [Call.moreTokens, htokens]⟩
      rw [List.length_cons, List.length_append, List.length_append, List.length_singleton]
      omega
    · simp only [hle] at h
      obtain h | ⟨_, s₃, h, -⟩ := bind_error.mp h
      · exact absurd h (not_tooManyArguments he)
      · exact absurd h not_complain_ok
  · simp only [Bool.false_eq_true, if_false] at hthen
    cases hthen

/-- **Expressions.** Whatever the bound, what the functions on expressions have read where they stop
can be completed. -/
theorem expressionsOpen (context : Context) (bound : Nat) : ExpressionsOpen context bound := by
  induction bound with
  | zero =>
    refine ⟨fun _ h => ?_, fun _ h => ?_, fun _ h => ?_, fun _ h => ?_, fun _ h => ?_⟩
    · rw [term] at h
      exact unexpected_term_error _ h
    · rw [expression] at h
      exact (unexpected_error h).at_start _ (by decide) (completes_expression _)
    · rw [operations] at h
      cases h
    · rw [arguments] at h
      exact (unexpected_error h).at_start [] (by simp) ⟨[], ⟨trivial, by simp⟩, rfl⟩
    · rw [moreArguments] at h
      cases h
  | succ bound ih =>
    exact ⟨term_succ_error ih, expression_succ_error ih, operations_succ_error ih,
      arguments_succ_error ih, moreArguments_succ_error ih⟩

/-! ## Statements -/

/-- A `let` has been read where no name that can be written stands for a variable. -/
def Stuck (env : Environment) (ks : List TokenKind) : Prop :=
  ks.getLast? = some (.keyword .let_) ∧
    ∀ name, (TokenKind.identifier name).WellFormed → ¬ env.Declares name

theorem Stuck.prepend {env : Environment} {ks : List TokenKind} (h : Stuck env ks)
    (pre : List TokenKind) : Stuck env (pre ++ ks) := by
  refine ⟨?_, h.2⟩
  rw [List.getLast?_append, h.1]
  rfl

/-- What is completed to a statement. -/
def StatementOpen (env : Environment) (ks ls : List TokenKind) : Prop :=
  Completes (fun t => t.Valid env ∨ Stuck env ks) Statement.tokens ks ls

/-- What is completed to statements in a row. -/
def BlockOpen (env : Environment) (ks ls : List TokenKind) : Prop :=
  Completes (fun ts => Statement.BlockValid env ts ∨ Stuck env ks) Statement.blockTokens ks ls

/-- The statement that stands for a missing one. -/
theorem statementOpen_nil (env : Environment) :
    StatementOpen env [] [.keyword .return_, .symbol .semicolon] :=
  ⟨.return_ none, .inl trivial, rfl⟩

theorem condition_error {target : String} (he : e.Unexpected)
    (h : condition context bound target s = .error e s') :
    Unfinished e s s' (Completes (Expression.Valid context.environment) fun e =>
      inParens e.tokens) := by
  obtain h | ⟨_, s₁, -, h⟩ := bind_error.mp h
  · refine between_error h ⟨inParens [.integer 0 "0"], by decide, ?_⟩
      ((expressionsOpen context bound).expression he) ?_ ?_
    · exact ⟨.mk (.integer 0 "0") [], ⟨trivial, trivial⟩, rfl⟩
    · rintro ks ls ⟨e, hvalid, htokens⟩
      exact ⟨e, hvalid, by simp [enclosed, htokens]⟩
    · intro s₁ u s₂ hok
      obtain ⟨e, hvalid, hread⟩ := (expressionsSound context bound).expression hok
      exact ⟨_, hread.reads, e, hvalid, by simp [enclosed]⟩
  · cases h

/-- What follows the target of an assignment. -/
theorem assignment_error (he : e.Unexpected) (t : Expression → Statement) {store : Pass Unit}
    (hvalid : ∀ value, value.Valid context.environment → (t value).Valid context.environment)
    (htokens : ∀ value, (t value).tokens =
      pre ++ .symbol .equal :: (value.tokens ++ [.symbol .semicolon]))
    (hstore : ∀ {s s'}, ¬ store s = .error e s')
    (hstill : ∀ {s u s'}, store s = .ok u s' → s.tokens.Reads [] s'.tokens)
    (hpre : s.tokens.Reads pre s₁.tokens)
    (h : (punctuation .equal >>= fun _ => expression context bound >>= fun _ =>
      store >>= fun _ => punctuation .semicolon) s₁ = .error e s') :
    Unfinished e s s' (StatementOpen context.environment) := by
  obtain hequal | ⟨_, s₂, hequal, h⟩ := bind_error.mp h
  · exact (punctuation_error hequal).unfinished hpre
      [.symbol .equal, .integer 0 "0", .symbol .semicolon] (by decide)
      ⟨t (.mk (.integer 0 "0") []), .inl (hvalid _ ⟨trivial, trivial⟩), htokens _⟩
  have hpre := hpre.append (punctuation_ok hequal).reads
  obtain hvalue | ⟨_, s₃, hvalue, h⟩ := bind_error.mp h
  · refine ((expressionsOpen context bound).expression he hvalue).within hpre [.symbol .semicolon]
      (by decide) ?_
    rintro ks ls - ⟨value, hvalue, hks⟩
    exact ⟨t value, .inl (hvalid _ hvalue), by simp [htokens, hks]⟩
  obtain ⟨value, hvaluevalid, hread⟩ := (expressionsSound context bound).expression hvalue
  obtain h | ⟨_, s₄, hstored, h⟩ := bind_error.mp h
  · exact absurd h hstore
  exact (punctuation_error h).unfinished (hpre.append (hread.reads.append (hstill hstored)))
    [.symbol .semicolon] (by decide) ⟨t value, .inl (hvalid _ hvaluevalid), by simp [htokens]⟩

/-- After `let` any declared name can follow, if there is one. -/
theorem statementOpen_let (env : Environment) : ∃ name, (TokenKind.identifier name).WellFormed ∧
    StatementOpen env [.keyword .let_]
      [.identifier name, .symbol .equal, .integer 0 "0", .symbol .semicolon] := by
  by_cases hdeclared : ∃ name, (TokenKind.identifier name).WellFormed ∧ env.Declares name
  · obtain ⟨name, hname, hdeclares⟩ := hdeclared
    exact ⟨name, hname, .let_ name (.mk (.integer 0 "0") []),
      .inl ⟨hdeclares, trivial, trivial⟩, rfl⟩
  · exact ⟨"x", by decide, .let_ "x" (.mk (.integer 0 "0") []),
      .inr ⟨rfl, fun name hname hdeclares => hdeclared ⟨name, hname, hdeclares⟩⟩, rfl⟩

theorem letStatement_error (he : e.Unexpected) (h : letStatement context bound s = .error e s') :
    Unfinished e s s' (StatementOpen context.environment) := by
  unfold letStatement at h
  obtain hlet | ⟨_, s₁, hlet, h⟩ := bind_error.mp h
  · exact (keyword_error hlet).at_start _ (by decide) (statementOpen_nil _)
  rw [line_bind] at h
  have hlet := keyword_ok hlet
  obtain hname | ⟨name, s₂, hname, h⟩ := bind_error.mp h
  · obtain ⟨name, hwellFormed, hopen⟩ := statementOpen_let context.environment
    exact (expectName_error hname).unfinished hlet.reads _
      (List.forall_mem_cons.mpr ⟨hwellFormed, by decide⟩) hopen
  have hhead := hlet.trans (expectName_ok hname)
  obtain h | ⟨v, s₃, hv, h⟩ := bind_error.mp h
  · exact absurd h (not_variableNamed_error he)
  obtain ⟨hfind, rfl⟩ := variableNamed_ok hv
  have hdeclares := declares_of_find? hfind
  obtain hbracket | ⟨found, s₄, hbracket, hthen⟩ := bind_error.mp h
  · exact .inl ((meets_of_accept_error hbracket).of_reads hhead.reads)
  obtain ⟨rfl, hopen⟩ | ⟨rfl, -, rfl⟩ := accept_ok hbracket (by simp)
  · simp only [if_true] at hthen
    obtain h | ⟨_, s₅, hpush, h⟩ := bind_error.mp hthen
    · cases h
    have hhead := hhead.trans (hopen.trans (write_ok hpush))
    obtain hindex | ⟨_, s₆, hindex, h⟩ := bind_error.mp h
    · refine ((expressionsOpen context bound).expression he hindex).within hhead.reads
        [.symbol .rightBracket, .symbol .equal, .integer 0 "0", .symbol .semicolon] (by decide) ?_
      rintro ks ls - ⟨index, hvalid, htokens⟩
      refine ⟨.letElement name index (.mk (.integer 0 "0") []),
        .inl ⟨hdeclares, hvalid, trivial, trivial⟩, ?_⟩
      simp [Statement.tokens, enclosed, htokens, Expression.tokens, Term.tokens,
        Expression.restTokens]
    obtain ⟨index, hvalid, hread⟩ := (expressionsSound context bound).expression hindex
    obtain hclose | ⟨_, s₇, hclose, h⟩ := bind_error.mp h
    · refine (punctuation_error hclose).unfinished (hhead.trans hread).reads
        [.symbol .rightBracket, .symbol .equal, .integer 0 "0", .symbol .semicolon] (by decide)
        ⟨.letElement name index (.mk (.integer 0 "0") []),
          .inl ⟨hdeclares, hvalid, trivial, trivial⟩, ?_⟩
      simp [Statement.tokens, enclosed, Expression.tokens, Term.tokens, Expression.restTokens]
    obtain h | ⟨_, s₈, hadd, h⟩ := bind_error.mp h
    · cases h
    have hpre := hhead.trans (hread.trans ((punctuation_ok hclose).trans (write_ok hadd)))
    refine assignment_error he (.letElement name index) ?_ ?_ ?_ ?_ hpre.reads h
    · exact fun value hvalue => ⟨hdeclares, hvalid, hvalue⟩
    · intro value
      simp [Statement.tokens, enclosed]
    · intro s s' h
      cases h
    · exact fun h => (writeAll_ok h).reads
  · simp only [Bool.false_eq_true, if_false] at hthen
    refine assignment_error he (.let_ name) ?_ ?_ ?_ ?_ hhead.reads hthen
    · exact fun value hvalue => ⟨hdeclares, hvalue⟩
    · exact fun value => rfl
    · intro s s' h
      cases h
    · exact fun h => (write_ok h).reads

theorem doStatement_error (he : e.Unexpected) (h : doStatement context bound s = .error e s') :
    Unfinished e s s' (StatementOpen context.environment) := by
  unfold doStatement at h
  obtain hdo | ⟨_, s₁, hdo, h⟩ := bind_error.mp h
  · exact (keyword_error hdo).at_start _ (by decide) (statementOpen_nil _)
  rw [line_bind] at h
  have hdo := keyword_ok hdo
  obtain hname | ⟨name, s₂, hname, h⟩ := bind_error.mp h
  · refine (expectName_error hname).unfinished hdo.reads
      (.identifier "x" :: (inParens [] ++ [.symbol .semicolon])) (by decide)
      ⟨.do_ (.mk none "x" []), .inl ⟨trivial, ?_⟩, rfl⟩
    have himplicit := implicit_le_one context.environment none
    have hmax : maxArguments = 65535 := rfl
    rw [List.length_nil]
    omega
  have hhead := hdo.trans (expectName_ok hname)
  have sound := expressionsSound context bound
  obtain hcall | ⟨_, s₃, hcall, h⟩ := bind_error.mp h
  · refine (call_error he sound.arguments ((expressionsOpen context bound).arguments he)
      hcall).within hhead.reads [.symbol .semicolon] (by decide) ?_
    rintro ks ls - ⟨c, hvalid, htokens⟩
    exact ⟨.do_ c, .inl hvalid, by simp [Statement.tokens, htokens]⟩
  obtain ⟨c, ks, htokens, hvalid, hread⟩ := call_ok sound.arguments hcall
  obtain h | ⟨_, s₄, hpop, h⟩ := bind_error.mp h
  · cases h
  exact (punctuation_error h).unfinished (hhead.trans (hread.trans (write_ok hpop))).reads
    [.symbol .semicolon] (by decide) ⟨.do_ c, .inl hvalid, by simp [Statement.tokens, htokens]⟩

theorem returnStatement_error (he : e.Unexpected)
    (h : returnStatement context bound s = .error e s') :
    Unfinished e s s' (StatementOpen context.environment) := by
  unfold returnStatement at h
  obtain hreturn | ⟨_, s₁, hreturn, h⟩ := bind_error.mp h
  · exact (keyword_error hreturn).at_start _ (by decide) (statementOpen_nil _)
  rw [symbol?_bind] at h
  have hreturn := keyword_ok hreturn
  split at h
  · obtain h | ⟨_, s₂, hzero, h⟩ := bind_error.mp h
    · cases h
    obtain h | ⟨_, s₃, -, h⟩ := bind_error.mp h
    · exact (punctuation_error h).unfinished (hreturn.trans (write_ok hzero)).reads
        [.symbol .semicolon] (by decide) ⟨.return_ none, .inl trivial, rfl⟩
    · cases h
  · obtain hvalue | ⟨_, s₂, hvalue, h⟩ := bind_error.mp h
    · refine ((expressionsOpen context bound).expression he hvalue).within hreturn.reads
        [.symbol .semicolon] (by decide) ?_
      rintro ks ls - ⟨value, hvalid, htokens⟩
      exact ⟨.return_ (some value), .inl hvalid, by simp [Statement.tokens, htokens]⟩
    obtain ⟨value, hvalid, hread⟩ := (expressionsSound context bound).expression hvalue
    obtain h | ⟨_, s₃, -, h⟩ := bind_error.mp h
    · exact (punctuation_error h).unfinished (hreturn.trans hread).reads [.symbol .semicolon]
        (by decide) ⟨.return_ (some value), .inl hvalid, by simp [Statement.tokens]⟩
    · cases h

/-- All functions on statements can be completed where they stop, up to a bound of their
recursion. -/
structure StatementsOpen (context : Context) (bound : Nat) : Prop where
  statements : ∀ {labels e s s'}, e.Unexpected → statements context bound labels s = .error e s' →
    Unfinished e s s' (BlockOpen context.environment)
  statement : ∀ {labels e s s'}, e.Unexpected → statement context bound labels s = .error e s' →
    Unfinished e s s' (StatementOpen context.environment)
  ifStatement : ∀ {labels e s s'}, e.Unexpected →
    ifStatement context bound labels s = .error e s' →
    Unfinished e s s' (StatementOpen context.environment)
  whileStatement : ∀ {labels e s s'}, e.Unexpected →
    whileStatement context bound labels s = .error e s' →
    Unfinished e s s' (StatementOpen context.environment)

theorem atBlockEnd_ok {ended : Bool} (h : (atBlockEnd : Pass Bool) s = .ok ended s') :
    s = s' := by
  unfold atBlockEnd at h
  rw [current_bind] at h
  generalize s.tokens.current.kind = k at h
  split at h <;> exact (pure_ok.mp h).2

theorem not_atBlockEnd_error : ¬ atBlockEnd s = .error e s' := by
  intro h
  unfold atBlockEnd at h
  rw [current_bind] at h
  generalize s.tokens.current.kind = k at h
  split at h <;> cases h

theorem statements_succ_error (ih : StatementsOpen context bound) {labels : Labels}
    (he : e.Unexpected) (h : statements context (bound + 1) labels s = .error e s') :
    Unfinished e s s' (BlockOpen context.environment) := by
  rw [statements, entering_eq] at h
  obtain h | ⟨ended, s₁, hend, hthen⟩ := bind_error.mp h
  · exact absurd h not_atBlockEnd_error
  obtain rfl := atBlockEnd_ok hend
  cases ended with
  | true =>
    simp only [if_true] at hthen
    cases hthen
  | false =>
    simp only [Bool.false_eq_true, if_false] at hthen
    obtain h | ⟨_, s₂, hstatement, h⟩ := bind_error.mp hthen
    · refine (ih.statement he h).imp ?_
      rintro ks ls ⟨t, hvalid, htokens⟩
      exact ⟨[t], hvalid.imp_left fun h => ⟨h, trivial⟩,
        by simp [Statement.blockTokens, htokens]⟩
    · obtain ⟨t, hvalid, -, hread⟩ := (statementsSound context bound).statement hstatement
      refine (ih.statements he h).within hread.reads [] (by simp) ?_
      rintro ks ls - ⟨ts, hts, htokens⟩
      exact ⟨t :: ts, hts.imp (fun h => ⟨hvalid, h⟩) fun h => h.prepend _,
        by simp [Statement.blockTokens, htokens]⟩

theorem statement_succ_error (ih : StatementsOpen context bound) {labels : Labels}
    (he : e.Unexpected) (h : statement context (bound + 1) labels s = .error e s') :
    Unfinished e s s' (StatementOpen context.environment) := by
  rw [statement, entering_eq] at h
  rw [keyword?_bind] at h
  generalize s.tokens.current.kind.keyword? = k at h
  split at h
  · obtain h | ⟨_, _, -, h⟩ := bind_error.mp h
    · exact letStatement_error he h
    · cases h
  · exact ih.ifStatement he h
  · exact ih.whileStatement he h
  · obtain h | ⟨_, _, -, h⟩ := bind_error.mp h
    · exact doStatement_error he h
    · cases h
  · obtain h | ⟨_, _, -, h⟩ := bind_error.mp h
    · exact returnStatement_error he h
    · cases h
  · exact (unexpected_error h).at_start _ (by decide) (statementOpen_nil _)

/-- Statements in braces. -/
theorem bracedStatements_error (ih : StatementsOpen context bound) {labels : Labels}
    (he : e.Unexpected) (h : braced (statements context bound labels) s = .error e s') :
    Unfinished e s s' fun ks ls => Completes
      (fun ts => Statement.BlockValid context.environment ts ∨ Stuck context.environment ks)
      (fun ts => inBraces (Statement.blockTokens ts)) ks ls := by
  refine between_error h ⟨inBraces [], by decide, [], .inl trivial, rfl⟩ (ih.statements he) ?_ ?_
  · rintro ks ls ⟨ts, hvalid, htokens⟩
    exact ⟨ts, hvalid.imp_right fun h => h.prepend [_], by simp [enclosed, htokens]⟩
  · intro s₁ labels' s₂ hok
    obtain ⟨ts, hvalid, -, hread⟩ := (statementsSound context bound).statements hok
    exact ⟨_, hread.reads, ts, .inl hvalid, by simp [enclosed]⟩

theorem ifStatement_succ_error (ih : StatementsOpen context bound) {labels : Labels}
    (he : e.Unexpected) (h : ifStatement context (bound + 1) labels s = .error e s') :
    Unfinished e s s' (StatementOpen context.environment) := by
  rw [ifStatement, entering_eq] at h
  obtain hif | ⟨_, s₁, hif, h⟩ := bind_error.mp h
  · exact (keyword_error hif).at_start _ (by decide) (statementOpen_nil _)
  have hif := keyword_ok hif
  have sound := statementsSound context bound
  obtain h | ⟨_, s₂, hscope, h⟩ := bind_error.mp h
  · exact absurd h (not_scope_error he)
  obtain ⟨-, rfl⟩ := scope_ok hscope
  obtain h | ⟨_, s₂, htarget, h⟩ := bind_error.mp h
  · exact absurd h (not_label_error he)
  obtain ⟨-, rfl⟩ := label_ok htarget
  obtain h | ⟨_, s₂, htarget, h⟩ := bind_error.mp h
  · exact absurd h (not_label_error he)
  obtain ⟨-, rfl⟩ := label_ok htarget
  obtain hcondition | ⟨_, s₂, hcondition, h⟩ := bind_error.mp h
  · refine (condition_error he hcondition).within hif.reads (inBraces []) (by decide) ?_
    rintro ks ls - ⟨e, hvalid, htokens⟩
    exact ⟨.if_ e [], .inl ⟨hvalid, trivial⟩,
      by simp [Statement.tokens, Statement.blockTokens, htokens]⟩
  obtain ⟨e, hevalid, heread⟩ := condition_ok hcondition
  have hhead := hif.trans heread
  obtain hyes | ⟨_, s₃, hyes, h⟩ := bind_error.mp h
  · refine (bracedStatements_error ih he hyes).within hhead.reads [] (by simp) ?_
    rintro ks ls - ⟨yes, hvalid, htokens⟩
    exact ⟨.if_ e yes, hvalid.imp (fun h => ⟨hevalid, h⟩) fun h => h.prepend _,
      by simp [Statement.tokens, htokens]⟩
  obtain ⟨yes, hyesvalid, -, hyesread⟩ := bracedStatements_ok sound hyes
  have hhead := hhead.trans hyesread
  obtain helse | ⟨found, s₄, helse, hthen⟩ := bind_error.mp h
  · exact .inl ((meets_of_accept_error helse).of_reads hhead.reads)
  obtain ⟨rfl, hread⟩ | ⟨rfl, -, rfl⟩ := accept_ok helse (by simp)
  · simp only [if_true] at hthen
    obtain h | ⟨_, s₅, hjump, h⟩ := bind_error.mp hthen
    · cases h
    have hhead := hhead.trans (hread.trans (writeAll_ok hjump))
    obtain hno | ⟨_, s₆, -, h⟩ := bind_error.mp h
    · refine (bracedStatements_error ih he hno).within hhead.reads [] (by simp) ?_
      rintro ks ls - ⟨no, hvalid, htokens⟩
      exact ⟨.ifElse e yes no, hvalid.imp (fun h => ⟨hevalid, hyesvalid, h⟩) fun h => h.prepend _,
        by simp [Statement.tokens, htokens]⟩
    obtain h | ⟨_, s₇, -, h⟩ := bind_error.mp h <;> cases h
  · simp only [Bool.false_eq_true, if_false] at hthen
    obtain h | ⟨_, s₅, -, h⟩ := bind_error.mp hthen <;> cases h

theorem whileStatement_succ_error (ih : StatementsOpen context bound) {labels : Labels}
    (he : e.Unexpected) (h : whileStatement context (bound + 1) labels s = .error e s') :
    Unfinished e s s' (StatementOpen context.environment) := by
  rw [whileStatement, entering_eq] at h
  obtain hwhile | ⟨_, s₁, hwhile, h⟩ := bind_error.mp h
  · exact (keyword_error hwhile).at_start _ (by decide) (statementOpen_nil _)
  obtain h | ⟨_, s₂, hscope, h⟩ := bind_error.mp h
  · exact absurd h (not_scope_error he)
  obtain ⟨-, rfl⟩ := scope_ok hscope
  obtain h | ⟨_, s₂, htarget, h⟩ := bind_error.mp h
  · exact absurd h (not_label_error he)
  obtain ⟨-, rfl⟩ := label_ok htarget
  obtain h | ⟨_, s₂, htarget, h⟩ := bind_error.mp h
  · exact absurd h (not_label_error he)
  obtain ⟨-, rfl⟩ := label_ok htarget
  obtain h | ⟨_, s₂, hlabel, h⟩ := bind_error.mp h
  · cases h
  have hwhile := (keyword_ok hwhile).trans (write_ok hlabel)
  obtain hcondition | ⟨_, s₃, hcondition, h⟩ := bind_error.mp h
  · refine (condition_error he hcondition).within hwhile.reads (inBraces []) (by decide) ?_
    rintro ks ls - ⟨e, hvalid, htokens⟩
    exact ⟨.while_ e [], .inl ⟨hvalid, trivial⟩,
      by simp [Statement.tokens, Statement.blockTokens, htokens]⟩
  obtain ⟨e, hevalid, heread⟩ := condition_ok hcondition
  obtain hbody | ⟨_, s₄, -, h⟩ := bind_error.mp h
  · refine (bracedStatements_error ih he hbody).within (hwhile.trans heread).reads [] (by simp) ?_
    rintro ks ls - ⟨body, hvalid, htokens⟩
    exact ⟨.while_ e body, hvalid.imp (fun h => ⟨hevalid, h⟩) fun h => h.prepend _,
      by simp [Statement.tokens, htokens]⟩
  obtain h | ⟨_, s₅, -, h⟩ := bind_error.mp h <;> cases h

/-- **Statements.** Whatever the bound, what the functions on statements have read where they stop
can be completed. -/
theorem statementsOpen (context : Context) (bound : Nat) : StatementsOpen context bound := by
  induction bound with
  | zero =>
    have hnone : ∀ {e s s'} {what : String}, (unexpected what : Pass Labels) s = .error e s' →
        Unfinished e s s' (StatementOpen context.environment) := fun h =>
      (unexpected_error h).at_start _ (by decide) (statementOpen_nil _)
    refine ⟨fun _ h => ?_, fun _ h => ?_, fun _ h => ?_, fun _ h => ?_⟩
    · rw [statements] at h
      cases h
    · rw [statement] at h
      exact hnone h
    · rw [ifStatement] at h
      exact hnone h
    · rw [whileStatement] at h
      exact hnone h
  | succ bound ih =>
    exact ⟨statements_succ_error ih, statement_succ_error ih, ifStatement_succ_error ih,
      whileStatement_succ_error ih⟩

end Pass

end Jack
