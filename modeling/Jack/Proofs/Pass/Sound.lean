import Jack.Proofs.Pass.Walk
import Jack.Proofs.Pass.Words
import Jack.Proofs.Syntax.Valid

/-!
# What a pass that succeeds has read and written

Every pass that succeeds has read the tokens of a syntax tree, which is valid, and has written the
code of that tree:

1. expressions, by induction on the bound of the recursion, for all five functions at once
   (`expressionsSound`);
2. statements in the same way (`statementsSound`);
3. declarations, where the tables built on the way are those of the declarations read
   (`compilationUnit_ok`).

The bound does not have to be large enough: a pass that stops early has still read whole trees.
-/

namespace Jack

open Environment (declares_of_find? read_of_find? write_of_find?)

namespace Pass

variable {s s' : State} {context : Context} {bound : Nat}

/-! ## Names and calls -/

theorem variableNamed_ok {name : String} {line : Nat} {v : Variable}
    (h : variableNamed context name line s = .ok v s') :
    context.environment.find? name = some v ∧ s = s' := by
  unfold variableNamed at h
  cases hv : context.resolve? name with
  | none =>
    simp only [hv] at h
    exact absurd h not_fail_ok
  | some w =>
    simp only [hv] at h
    obtain ⟨rfl, rfl⟩ := pure_ok.mp h
    exact ⟨hv, rfl⟩

theorem stringConstant_ok {characters : String} {u : Unit}
    (h : stringConstant characters s = .ok u s') :
    characters.toList.length ≤ maxConstant ∧
      Went s [] ((stringText characters.toList).map .instruction) s' := by
  unfold stringConstant at h
  split at h
  · rename_i hle
    exact ⟨hle, writeAll_ok h⟩
  · exact absurd h not_complain_ok

/-- The tokens of a call up to its parentheses, the first of which has been read. -/
theorem callee_ok {name routine : String} {line implicit : Nat}
    (h : callee context name line s = .ok (routine, implicit) s') :
    ∃ receiver member ks, Call.headTokens receiver member = .identifier name :: ks ∧
      routine = context.environment.routine receiver member ∧
      implicit = context.environment.implicit receiver ∧
      Went s ks ((context.environment.receiver receiver).map .instruction) s' := by
  unfold callee at h
  rw [symbol?_bind] at h
  generalize hy : s.tokens.current.kind.symbol? = y at h
  split at h
  · obtain ⟨_, s₁, hwrite, h⟩ := bind_ok.mp h
    obtain ⟨heq, rfl⟩ := pure_ok.mp h
    cases heq
    exact ⟨none, name, [], rfl, rfl, rfl, write_ok hwrite⟩
  · have hk := TokenKind.symbol?_eq_some.mp hy
    obtain ⟨_, s₁, hnext, h⟩ := bind_ok.mp h
    obtain ⟨member, s₂, hname, h⟩ := bind_ok.mp h
    have hread := (next_ok hnext hk (by simp)).2.trans (expectName_ok hname)
    cases hv : context.resolve? name with
    | some v =>
      simp only [hv] at h
      obtain ⟨_, s₃, hwrite, h⟩ := bind_ok.mp h
      obtain ⟨heq, rfl⟩ := pure_ok.mp h
      cases heq
      have hfind : context.environment.find? name = some v := hv
      refine ⟨some name, member, _, rfl, ?_, ?_, (hread.trans (write_ok hwrite)).congr rfl ?_⟩
      · simp [Environment.routine, hfind]
      · simp [Environment.implicit, hfind]
      · simp [Environment.receiver, read_of_find? hfind]
    | none =>
      simp only [hv] at h
      obtain ⟨_, s₃, hnote, h⟩ := bind_ok.mp h
      obtain ⟨heq, rfl⟩ := pure_ok.mp h
      cases heq
      have hfind : context.environment.find? name = none := hv
      refine ⟨some name, member, _, rfl, ?_, ?_, (hread.trans (note_ok hnote)).congr rfl ?_⟩
      · simp [Environment.routine, hfind]
      · simp [Environment.implicit, hfind]
      · simp [Environment.receiver, Environment.read, hfind]
  · exact absurd h not_unexpected_ok

/-! ## Expressions -/

/-- A pass has read a term. -/
def ReadsTerm (context : Context) (s s' : State) : Prop :=
  ∃ t : Term, t.Valid context.environment ∧
    Went s t.tokens ((t.code context.environment).map .instruction) s'

/-- A pass has read an expression. -/
def ReadsExpression (context : Context) (s s' : State) : Prop :=
  ∃ e : Expression, e.Valid context.environment ∧
    Went s e.tokens ((e.code context.environment).map .instruction) s'

/-- A pass has read operators with their right operands. -/
def ReadsOperations (context : Context) (s s' : State) : Prop :=
  ∃ rest, Expression.RestValid context.environment rest ∧
    Went s (Expression.restTokens rest)
      ((Expression.restCode context.environment rest).map .instruction) s'

/-- A pass has read the given number of arguments. -/
def ReadsArguments (context : Context) (s : State) (count : Nat) (s' : State) : Prop :=
  ∃ arguments, arguments.length = count ∧ Call.ArgumentsValid context.environment arguments ∧
    Went s (Call.argumentTokens arguments)
      ((Call.argumentCode context.environment arguments).map .instruction) s'

/-- A pass has read arguments after others. -/
def ReadsMoreArguments (context : Context) (s : State) (count : Nat) (s' : State) : Prop :=
  ∃ arguments, arguments.length = count ∧ Call.ArgumentsValid context.environment arguments ∧
    Went s (Call.moreTokens arguments)
      ((Call.argumentCode context.environment arguments).map .instruction) s'

/-- A call whose leading name has been read. -/
theorem call_ok {arguments : Pass Nat} {name : String} {line : Nat} {u : Unit}
    (harg : ∀ {s count s'}, arguments s = .ok count s' → ReadsArguments context s count s')
    (h : call context arguments name line s = .ok u s') :
    ∃ (c : Call) (ks : List TokenKind), c.tokens = .identifier name :: ks ∧
      c.Valid context.environment ∧
      Went s ks ((c.code context.environment).map .instruction) s' := by
  unfold call at h
  obtain ⟨⟨routine, implicit⟩, s₁, hcallee, h⟩ := bind_ok.mp h
  obtain ⟨_, s₂, hopen, h⟩ := bind_ok.mp h
  obtain ⟨count, s₃, harguments, h⟩ := bind_ok.mp h
  obtain ⟨receiver, member, ks, hks, rfl, rfl, hhead⟩ := callee_ok hcallee
  obtain ⟨es, rfl, hvalid, hes⟩ := harg harguments
  by_cases hle : es.length + context.environment.implicit receiver ≤ maxArguments
  · simp only [hle] at h
    obtain ⟨_, s₄, hclose, h⟩ := bind_ok.mp h
    have hwalk := hhead.trans
      (((punctuation_ok hopen).enclosed hes (punctuation_ok hclose)).trans (write_ok h))
    refine ⟨.mk receiver member es, _, ?_, ⟨hvalid, by omega⟩, hwalk.congr rfl ?_⟩
    · rw [Call.tokens, hks, List.cons_append, List.append_nil]
    · simp [Call.code, Nat.add_comm]
  · simp only [hle] at h
    obtain ⟨_, s₄, hcomplain, h⟩ := bind_ok.mp h
    exact absurd hcomplain not_complain_ok

/-- All functions on expressions read whole trees, up to a bound of their recursion. -/
structure ExpressionsSound (context : Context) (bound : Nat) : Prop where
  term : ∀ {s u s'}, term context bound s = .ok u s' → ReadsTerm context s s'
  expression : ∀ {s u s'}, expression context bound s = .ok u s' → ReadsExpression context s s'
  operations : ∀ {s u s'}, operations context bound s = .ok u s' → ReadsOperations context s s'
  arguments : ∀ {s count s'}, arguments context bound s = .ok count s' →
    ReadsArguments context s count s'
  moreArguments : ∀ {s seen count s'}, moreArguments context bound seen s = .ok count s' →
    ∃ more, count = seen + more ∧ ReadsMoreArguments context s more s'

/-- A term that starts with a name, which has been read. -/
theorem named_ok (ih : ExpressionsSound context bound) {name : String} {line : Nat} {u : Unit}
    {s₀ : State} (hname : Went s₀ [.identifier name] [] s)
    (h : (symbol? >>= fun y => match y with
      | some .leftBracket => do
        let v ← variableNamed context name line
        let _ ← next
        write v.push
        expression context bound
        punctuation .rightBracket
        writeAll [.operate .add, .popTarget, .pushIndirect]
      | some .leftParen | some .dot =>
        entering .call bound (call context (arguments context bound) name line)
      | _ => do write (← variableNamed context name line).push) s = .ok u s') :
    ReadsTerm context s₀ s' := by
  rw [symbol?_bind] at h
  generalize hy : s.tokens.current.kind.symbol? = y at h
  split at h
  · -- an element of an array
    have hk := TokenKind.symbol?_eq_some.mp hy
    obtain ⟨v, s₁, hv, h⟩ := bind_ok.mp h
    obtain ⟨hfind, rfl⟩ := variableNamed_ok hv
    obtain ⟨_, s₂, hnext, h⟩ := bind_ok.mp h
    obtain ⟨_, s₃, hwrite, h⟩ := bind_ok.mp h
    obtain ⟨_, s₄, hexp, h⟩ := bind_ok.mp h
    obtain ⟨_, s₅, hclose, h⟩ := bind_ok.mp h
    obtain ⟨index, hvalid, hindex⟩ := ih.expression hexp
    have hopen := (next_ok hnext hk (by simp)).2.trans (write_ok hwrite)
    have hwalk := hname.trans (hopen.trans (hindex.trans
      ((punctuation_ok hclose).trans (writeAll_ok h))))
    refine ⟨.element name index, ⟨declares_of_find? hfind, hvalid⟩, hwalk.congr ?_ ?_⟩
    · simp [Term.tokens, enclosed]
    · simp [Term.code, read_of_find? hfind, Instruction.popTarget, Instruction.pushIndirect]
  · obtain ⟨c, ks, htokens, hvalid, hcall⟩ := call_ok ih.arguments h
    exact ⟨.call c, hvalid, (hname.trans hcall).congr htokens.symm rfl⟩
  · obtain ⟨c, ks, htokens, hvalid, hcall⟩ := call_ok ih.arguments h
    exact ⟨.call c, hvalid, (hname.trans hcall).congr htokens.symm rfl⟩
  · obtain ⟨v, s₁, hv, h⟩ := bind_ok.mp h
    obtain ⟨hfind, rfl⟩ := variableNamed_ok hv
    refine ⟨.var name, declares_of_find? hfind, (hname.trans (write_ok h)).congr rfl ?_⟩
    rw [Term.code, read_of_find? hfind]
    rfl

theorem term_succ_ok (ih : ExpressionsSound context bound) {u : Unit}
    (h : term context (bound + 1) s = .ok u s') : ReadsTerm context s s' := by
  rw [term, entering_eq] at h
  rw [current_bind] at h
  cases hk : s.tokens.current.kind with
  | integer value digits =>
    simp only [hk] at h
    obtain ⟨_, s₁, hnext, h⟩ := bind_ok.mp h
    exact ⟨.integer value digits, trivial, (next_ok hnext hk (by simp)).2.trans (write_ok h)⟩
  | string characters =>
    simp only [hk] at h
    obtain ⟨_, s₁, hnext, h⟩ := bind_ok.mp h
    obtain ⟨hle, hcode⟩ := stringConstant_ok h
    exact ⟨.string characters, hle, (next_ok hnext hk (by simp)).2.trans hcode⟩
  | keyword k =>
    simp only [hk] at h
    cases hcode : keywordConstant? k with
    | some code =>
      simp only [hcode] at h
      obtain ⟨w, rfl, rfl⟩ := exists_of_keywordConstant? hcode
      obtain ⟨_, s₁, hwrite, h⟩ := bind_ok.mp h
      obtain ⟨_, s₂, hnext, h⟩ := bind_ok.mp h
      obtain ⟨rfl, rfl⟩ := pure_ok.mp h
      have hwent := writeAll_ok hwrite
      have hk₁ : s₁.tokens.current.kind = .keyword w.keyword := by rw [← hk, hwent.reads]
      refine ⟨.word w, trivial, (hwent.trans (next_ok hnext hk₁ (by simp)).2).congr rfl ?_⟩
      rw [List.append_nil, Term.code]
    | none =>
      simp only [hcode] at h
      exact absurd h not_unexpected_ok
  | identifier name =>
    simp only [hk] at h
    obtain ⟨_, s₁, hnext, h⟩ := bind_ok.mp h
    exact named_ok ih (next_ok hnext hk (by simp)).2 h
  | symbol y =>
    simp only [hk] at h
    by_cases hy : y = .leftParen
    · subst hy
      obtain ⟨s₁, s₂, hopen, hin, hclose⟩ := between_ok h
      obtain ⟨e, hvalid, he⟩ := ih.expression hin
      exact ⟨.parenthesized e, hvalid, (hopen.enclosed he hclose).congr rfl rfl⟩
    · cases hop : unaryOperator? y with
      | some i =>
        obtain ⟨op, rfl, rfl⟩ := exists_of_unaryOperator? hop
        have h' : (next >>= fun _ => term context bound >>= fun _ => write op.code) s =
            .ok u s' := by
          cases op <;> exact h
        obtain ⟨_, s₁, hnext, h⟩ := bind_ok.mp h'
        obtain ⟨_, s₂, hterm, h⟩ := bind_ok.mp h
        obtain ⟨t, hvalid, ht⟩ := ih.term hterm
        have hwalk := (next_ok hnext hk (by simp)).2.trans (ht.trans (write_ok h))
        refine ⟨.unary op t, hvalid, hwalk.congr ?_ ?_⟩
        · simp [Term.tokens]
        · simp [Term.code]
      | none =>
        have h' : unexpected "term" s = .ok u s' := by
          cases y <;> first | exact h | exact absurd rfl hy | simp [unaryOperator?] at hop
        exact absurd h' not_unexpected_ok
  | eof =>
    simp only [hk] at h
    exact absurd h not_unexpected_ok

theorem expression_succ_ok (ih : ExpressionsSound context bound) {u : Unit}
    (h : expression context (bound + 1) s = .ok u s') : ReadsExpression context s s' := by
  rw [expression, entering_eq] at h
  obtain ⟨_, s₁, hterm, h⟩ := bind_ok.mp h
  obtain ⟨t, hvalid, ht⟩ := ih.term hterm
  obtain ⟨rest, hrest, hops⟩ := ih.operations h
  refine ⟨.mk t rest, ⟨hvalid, hrest⟩, (ht.trans hops).congr rfl ?_⟩
  rw [Expression.code, List.map_append]

theorem operations_succ_ok (ih : ExpressionsSound context bound) {u : Unit}
    (h : operations context (bound + 1) s = .ok u s') : ReadsOperations context s s' := by
  rw [operations, entering_eq] at h
  rw [symbol?_bind] at h
  cases hop : s.tokens.current.kind.symbol?.bind binaryOperator? with
  | none =>
    simp only [hop] at h
    obtain ⟨rfl, rfl⟩ := pure_ok.mp h
    exact ⟨[], trivial, Went.refl s⟩
  | some i =>
    simp only [hop] at h
    obtain ⟨y, hy, hi⟩ := Option.bind_eq_some_iff.mp hop
    have hk := TokenKind.symbol?_eq_some.mp hy
    obtain ⟨op, rfl, rfl⟩ := exists_of_binaryOperator? hi
    obtain ⟨_, s₁, hnext, h⟩ := bind_ok.mp h
    obtain ⟨_, s₂, hterm, h⟩ := bind_ok.mp h
    obtain ⟨_, s₃, hwrite, h⟩ := bind_ok.mp h
    obtain ⟨t, hvalid, ht⟩ := ih.term hterm
    obtain ⟨rest, hrest, hops⟩ := ih.operations h
    have hwalk := (next_ok hnext hk (by simp)).2.trans (ht.trans ((write_ok hwrite).trans hops))
    refine ⟨(op, t) :: rest, ⟨hvalid, hrest⟩, hwalk.congr ?_ ?_⟩
    · simp [Expression.restTokens]
    · simp [Expression.restCode]

theorem arguments_succ_ok (ih : ExpressionsSound context bound) {count : Nat}
    (h : arguments context (bound + 1) s = .ok count s') : ReadsArguments context s count s' := by
  rw [arguments, entering_eq] at h
  rw [symbol?_bind] at h
  split at h
  · obtain ⟨rfl, rfl⟩ := pure_ok.mp h
    exact ⟨[], rfl, trivial, Went.refl s⟩
  · obtain ⟨_, s₁, hexp, h⟩ := bind_ok.mp h
    obtain ⟨e, hvalid, he⟩ := ih.expression hexp
    obtain ⟨_, rfl, es, rfl, hes, hmore⟩ := ih.moreArguments h
    refine ⟨e :: es, Nat.add_comm _ _, ⟨hvalid, hes⟩, (he.trans hmore).congr rfl ?_⟩
    rw [Call.argumentCode, List.map_append]

theorem moreArguments_succ_ok (ih : ExpressionsSound context bound) {seen count : Nat}
    (h : moreArguments context (bound + 1) seen s = .ok count s') :
    ∃ more, count = seen + more ∧ ReadsMoreArguments context s more s' := by
  rw [moreArguments, entering_eq] at h
  obtain ⟨found, s₁, hcomma, hthen⟩ := bind_ok.mp h
  obtain ⟨rfl, hread⟩ | ⟨rfl, -, rfl⟩ := accept_ok hcomma (by simp)
  · simp only [if_true] at hthen
    obtain ⟨_, s₂, hexp, h⟩ := bind_ok.mp hthen
    obtain ⟨e, hvalid, he⟩ := ih.expression hexp
    by_cases hle : seen + 1 ≤ maxArguments
    · simp only [hle] at h
      obtain ⟨_, rfl, es, rfl, hes, hmore⟩ := ih.moreArguments h
      refine ⟨es.length + 1, by omega, e :: es, rfl, ⟨hvalid, hes⟩,
        (hread.trans (he.trans hmore)).congr ?_ ?_⟩
      · simp [Call.moreTokens]
      · simp [Call.argumentCode]
    · simp only [hle] at h
      obtain ⟨_, s₃, hcomplain, h⟩ := bind_ok.mp h
      exact absurd hcomplain not_complain_ok
  · simp only [Bool.false_eq_true, if_false] at hthen
    obtain ⟨rfl, rfl⟩ := pure_ok.mp hthen
    exact ⟨0, rfl, [], rfl, trivial, Went.refl _⟩

/-- **Expressions.** Whatever the bound, the functions on expressions read whole trees and write
their code. -/
theorem expressionsSound (context : Context) (bound : Nat) : ExpressionsSound context bound := by
  induction bound with
  | zero =>
    -- at the end of the recursion a function fails or reads nothing
    refine ⟨fun h => ?_, fun h => ?_, fun h => ?_, fun h => ?_, fun h => ?_⟩
    · rw [term] at h
      exact absurd h not_unexpected_ok
    · rw [expression] at h
      exact absurd h not_unexpected_ok
    · rw [operations] at h
      obtain ⟨rfl, rfl⟩ := pure_ok.mp h
      exact ⟨[], trivial, Went.refl _⟩
    · rw [arguments] at h
      exact absurd h not_unexpected_ok
    · rw [moreArguments] at h
      obtain ⟨rfl, rfl⟩ := pure_ok.mp h
      exact ⟨0, rfl, [], rfl, trivial, Went.refl _⟩
  | succ bound ih =>
    exact ⟨term_succ_ok ih, expression_succ_ok ih, operations_succ_ok ih, arguments_succ_ok ih,
      moreArguments_succ_ok ih⟩

/-! ## Statements -/

theorem scope_ok {subroutine : Subroutine} (h : scope context s = .ok subroutine s') :
    context.subroutine = some subroutine ∧ s = s' := by
  unfold scope at h
  cases hsubroutine : context.subroutine with
  | none =>
    simp only [hsubroutine] at h
    exact absurd h not_complain_ok
  | some entered =>
    simp only [hsubroutine] at h
    obtain ⟨rfl, rfl⟩ := pure_ok.mp h
    exact ⟨rfl, rfl⟩

theorem label_ok {mark : Mark} {number : Nat} {text : String}
    (h : label context mark number s = .ok text s') :
    text = context.environment.label mark.text number ∧ s = s' := by
  obtain ⟨subroutine, s₁, hscope, h⟩ := bind_ok.mp h
  obtain ⟨hsubroutine, rfl⟩ := scope_ok hscope
  obtain ⟨rfl, rfl⟩ := pure_ok.mp h
  exact ⟨label_environment hsubroutine mark number, rfl⟩

theorem condition_ok {target : String} {u : Unit}
    (h : condition context bound target s = .ok u s') :
    ∃ e : Expression, e.Valid context.environment ∧
      Went s (inParens e.tokens)
        (List.map .instruction (e.code context.environment ++ [.operate .not, .ifGoto target]))
        s' := by
  obtain ⟨_, s₁, hparens, h⟩ := bind_ok.mp h
  obtain ⟨s₂, s₃, hopen, hexp, hclose⟩ := between_ok hparens
  obtain ⟨e, hvalid, he⟩ := (expressionsSound context bound).expression hexp
  refine ⟨e, hvalid, ((hopen.enclosed he hclose).trans (writeAll_ok h)).congr ?_ ?_⟩
  · rw [List.append_nil]
  · rw [List.map_append]

/-- A pass has read a statement and has taken the numbers of its labels. -/
def ReadsStatement (context : Context) (labels : Labels) (s : State) (labels' : Labels)
    (s' : State) : Prop :=
  ∃ t : Statement, t.Valid context.environment ∧ labels' = t.after labels ∧
    Went s t.tokens ((t.code context.environment labels).map .instruction) s'

/-- A pass has read statements and has taken the numbers of their labels. -/
def ReadsStatements (context : Context) (labels : Labels) (s : State) (labels' : Labels)
    (s' : State) : Prop :=
  ∃ ts, Statement.BlockValid context.environment ts ∧ labels' = Statement.blockAfter ts labels ∧
    Went s (Statement.blockTokens ts)
      ((Statement.blockCode context.environment ts labels).map .instruction) s'

theorem letStatement_ok {u : Unit} (labels : Labels)
    (h : letStatement context bound s = .ok u s') : ReadsStatement context labels s labels s' := by
  unfold letStatement at h
  obtain ⟨_, s₁, hlet, h⟩ := bind_ok.mp h
  rw [line_bind] at h
  obtain ⟨name, s₂, hname, h⟩ := bind_ok.mp h
  obtain ⟨v, s₃, hv, h⟩ := bind_ok.mp h
  obtain ⟨hfind, rfl⟩ := variableNamed_ok hv
  have hhead := (keyword_ok hlet).trans (expectName_ok hname)
  have sound := expressionsSound context bound
  obtain ⟨found, s₄, hbracket, hthen⟩ := bind_ok.mp h
  obtain ⟨rfl, hopen⟩ | ⟨rfl, -, rfl⟩ := accept_ok hbracket (by simp)
  · simp only [if_true] at hthen
    obtain ⟨_, s₅, hpush, h⟩ := bind_ok.mp hthen
    obtain ⟨_, s₆, hindex, h⟩ := bind_ok.mp h
    obtain ⟨_, s₇, hclose, h⟩ := bind_ok.mp h
    obtain ⟨_, s₈, hadd, h⟩ := bind_ok.mp h
    obtain ⟨_, s₉, hequal, h⟩ := bind_ok.mp h
    obtain ⟨_, s₁₀, hvalue, h⟩ := bind_ok.mp h
    obtain ⟨_, s₁₁, hstore, h⟩ := bind_ok.mp h
    obtain ⟨index, hivalid, hi⟩ := sound.expression hindex
    obtain ⟨value, hvvalid, hvwalk⟩ := sound.expression hvalue
    have haddress := hopen.trans ((write_ok hpush).trans (hi.trans ((punctuation_ok hclose).trans
      (write_ok hadd))))
    have hwalk := hhead.trans (haddress.trans ((punctuation_ok hequal).trans (hvwalk.trans
      ((writeAll_ok hstore).trans (punctuation_ok h)))))
    refine ⟨.letElement name index value, ⟨declares_of_find? hfind, hivalid, hvvalid⟩, rfl,
      hwalk.congr ?_ ?_⟩
    · simp [Statement.tokens, enclosed]
    · simp [Statement.code, read_of_find? hfind, Instruction.popScratch, Instruction.popTarget,
        Instruction.pushScratch, Instruction.popIndirect]
  · simp only [Bool.false_eq_true, if_false] at hthen
    obtain ⟨_, s₅, hequal, h⟩ := bind_ok.mp hthen
    obtain ⟨_, s₆, hvalue, h⟩ := bind_ok.mp h
    obtain ⟨_, s₇, hstore, h⟩ := bind_ok.mp h
    obtain ⟨value, hvvalid, hvwalk⟩ := sound.expression hvalue
    have hwalk := hhead.trans ((punctuation_ok hequal).trans (hvwalk.trans
      ((write_ok hstore).trans (punctuation_ok h))))
    refine ⟨.let_ name value, ⟨declares_of_find? hfind, hvvalid⟩, rfl, hwalk.congr ?_ ?_⟩
    · simp [Statement.tokens]
    · simp [Statement.code, write_of_find? hfind]

theorem doStatement_ok {u : Unit} (labels : Labels)
    (h : doStatement context bound s = .ok u s') : ReadsStatement context labels s labels s' := by
  unfold doStatement at h
  obtain ⟨_, s₁, hdo, h⟩ := bind_ok.mp h
  rw [line_bind] at h
  obtain ⟨name, s₂, hname, h⟩ := bind_ok.mp h
  obtain ⟨_, s₃, hcall, h⟩ := bind_ok.mp h
  obtain ⟨_, s₄, hpop, h⟩ := bind_ok.mp h
  obtain ⟨c, ks, htokens, hvalid, hc⟩ := call_ok (expressionsSound context bound).arguments hcall
  have hwalk := (keyword_ok hdo).trans ((expectName_ok hname).trans (hc.trans
    ((write_ok hpop).trans (punctuation_ok h))))
  refine ⟨.do_ c, hvalid, rfl, hwalk.congr ?_ ?_⟩
  · simp [Statement.tokens, htokens]
  · simp [Statement.code, Instruction.popScratch]

theorem returnStatement_ok {u : Unit} (labels : Labels)
    (h : returnStatement context bound s = .ok u s') :
    ReadsStatement context labels s labels s' := by
  unfold returnStatement at h
  obtain ⟨_, s₁, hreturn, h⟩ := bind_ok.mp h
  rw [symbol?_bind] at h
  split at h
  · obtain ⟨_, s₂, hzero, h⟩ := bind_ok.mp h
    obtain ⟨_, s₃, hend, h⟩ := bind_ok.mp h
    have hwalk := (keyword_ok hreturn).trans ((write_ok hzero).trans ((punctuation_ok hend).trans
      (write_ok h)))
    exact ⟨.return_ none, trivial, rfl, hwalk.congr rfl rfl⟩
  · obtain ⟨_, s₂, hvalue, h⟩ := bind_ok.mp h
    obtain ⟨_, s₃, hend, h⟩ := bind_ok.mp h
    obtain ⟨value, hvalid, hv⟩ := (expressionsSound context bound).expression hvalue
    have hwalk := (keyword_ok hreturn).trans (hv.trans ((punctuation_ok hend).trans (write_ok h)))
    refine ⟨.return_ (some value), hvalid, rfl, hwalk.congr ?_ ?_⟩
    · simp [Statement.tokens]
    · simp [Statement.code]

/-- All functions on statements read whole trees, up to a bound of their recursion. -/
structure StatementsSound (context : Context) (bound : Nat) : Prop where
  statements : ∀ {labels s labels' s'}, statements context bound labels s = .ok labels' s' →
    ReadsStatements context labels s labels' s'
  statement : ∀ {labels s labels' s'}, statement context bound labels s = .ok labels' s' →
    ReadsStatement context labels s labels' s'
  ifStatement : ∀ {labels s labels' s'}, ifStatement context bound labels s = .ok labels' s' →
    ReadsStatement context labels s labels' s'
  whileStatement : ∀ {labels s labels' s'},
    whileStatement context bound labels s = .ok labels' s' →
    ReadsStatement context labels s labels' s'

theorem statements_succ_ok (ih : StatementsSound context bound) {labels labels' : Labels}
    (h : statements context (bound + 1) labels s = .ok labels' s') :
    ReadsStatements context labels s labels' s' := by
  rw [statements, entering_eq] at h
  obtain ⟨ended, s₁, hend, hthen⟩ := bind_ok.mp h
  have hs : s = s₁ := by
    unfold atBlockEnd at hend
    rw [current_bind] at hend
    generalize s.tokens.current.kind = k at hend
    split at hend <;> exact (pure_ok.mp hend).2
  subst hs
  cases ended with
  | true =>
    simp only [if_true] at hthen
    obtain ⟨rfl, rfl⟩ := pure_ok.mp hthen
    exact ⟨[], trivial, rfl, Went.refl s⟩
  | false =>
    simp only [Bool.false_eq_true, if_false] at hthen
    obtain ⟨_, s₂, hstatement, h⟩ := bind_ok.mp hthen
    obtain ⟨t, hvalid, rfl, ht⟩ := ih.statement hstatement
    obtain ⟨ts, htsvalid, rfl, hts⟩ := ih.statements h
    refine ⟨t :: ts, ⟨hvalid, htsvalid⟩, rfl, (ht.trans hts).congr rfl ?_⟩
    rw [Statement.blockCode, List.map_append]

theorem statement_succ_ok (ih : StatementsSound context bound) {labels labels' : Labels}
    (h : statement context (bound + 1) labels s = .ok labels' s') :
    ReadsStatement context labels s labels' s' := by
  rw [statement, entering_eq] at h
  rw [keyword?_bind] at h
  generalize s.tokens.current.kind.keyword? = k at h
  split at h
  · obtain ⟨_, s₁, hlet, h⟩ := bind_ok.mp h
    obtain ⟨rfl, rfl⟩ := pure_ok.mp h
    exact letStatement_ok labels hlet
  · exact ih.ifStatement h
  · exact ih.whileStatement h
  · obtain ⟨_, s₁, hdo, h⟩ := bind_ok.mp h
    obtain ⟨rfl, rfl⟩ := pure_ok.mp h
    exact doStatement_ok labels hdo
  · obtain ⟨_, s₁, hreturn, h⟩ := bind_ok.mp h
    obtain ⟨rfl, rfl⟩ := pure_ok.mp h
    exact returnStatement_ok labels hreturn
  · exact absurd h not_unexpected_ok

/-- Statements in braces. -/
theorem bracedStatements_ok (ih : StatementsSound context bound) {labels labels' : Labels}
    (h : braced (statements context bound labels) s = .ok labels' s') :
    ∃ ts, Statement.BlockValid context.environment ts ∧
      labels' = Statement.blockAfter ts labels ∧
      Went s (inBraces (Statement.blockTokens ts))
        ((Statement.blockCode context.environment ts labels).map .instruction) s' := by
  obtain ⟨s₁, s₂, hopen, hin, hclose⟩ := between_ok h
  obtain ⟨ts, hvalid, hafter, hts⟩ := ih.statements hin
  exact ⟨ts, hvalid, hafter, hopen.enclosed hts hclose⟩

theorem ifStatement_succ_ok (ih : StatementsSound context bound) {labels labels' : Labels}
    (h : ifStatement context (bound + 1) labels s = .ok labels' s') :
    ReadsStatement context labels s labels' s' := by
  rw [ifStatement, entering_eq] at h
  obtain ⟨_, s₁, hif, h⟩ := bind_ok.mp h
  obtain ⟨_, s₂, hscope, h⟩ := bind_ok.mp h
  obtain ⟨-, rfl⟩ := scope_ok hscope
  obtain ⟨_, s₂, hfalse, h⟩ := bind_ok.mp h
  obtain ⟨rfl, rfl⟩ := label_ok hfalse
  obtain ⟨_, s₂, hend, h⟩ := bind_ok.mp h
  obtain ⟨rfl, rfl⟩ := label_ok hend
  obtain ⟨_, s₂, hcondition, h⟩ := bind_ok.mp h
  obtain ⟨_, s₃, hblock, h⟩ := bind_ok.mp h
  obtain ⟨e, hevalid, he⟩ := condition_ok hcondition
  obtain ⟨yes, hyes, rfl, hyeswalk⟩ := bracedStatements_ok ih hblock
  have hhead := (keyword_ok hif).trans (he.trans hyeswalk)
  obtain ⟨found, s₄, helse, hthen⟩ := bind_ok.mp h
  obtain ⟨rfl, helseread⟩ | ⟨rfl, -, rfl⟩ := accept_ok helse (by simp)
  · simp only [if_true] at hthen
    obtain ⟨_, s₅, hjump, h⟩ := bind_ok.mp hthen
    obtain ⟨_, s₆, hblock, h⟩ := bind_ok.mp h
    obtain ⟨_, s₇, hlabel, h⟩ := bind_ok.mp h
    obtain ⟨rfl, rfl⟩ := pure_ok.mp h
    obtain ⟨no, hno, rfl, hnowalk⟩ := bracedStatements_ok ih hblock
    have hwalk := hhead.trans (helseread.trans ((writeAll_ok hjump).trans (hnowalk.trans
      (write_ok hlabel))))
    refine ⟨.ifElse e yes no, ⟨hevalid, hyes, hno⟩, rfl, hwalk.congr ?_ ?_⟩
    · simp [Statement.tokens]
    · simp [Statement.code, Mark.text]
  · simp only [Bool.false_eq_true, if_false] at hthen
    obtain ⟨_, s₅, hlabel, h⟩ := bind_ok.mp hthen
    obtain ⟨rfl, rfl⟩ := pure_ok.mp h
    refine ⟨.if_ e yes, ⟨hevalid, hyes⟩, rfl, (hhead.trans (write_ok hlabel)).congr ?_ ?_⟩
    · simp [Statement.tokens]
    · simp [Statement.code, Mark.text]

theorem whileStatement_succ_ok (ih : StatementsSound context bound) {labels labels' : Labels}
    (h : whileStatement context (bound + 1) labels s = .ok labels' s') :
    ReadsStatement context labels s labels' s' := by
  rw [whileStatement, entering_eq] at h
  obtain ⟨_, s₁, hwhile, h⟩ := bind_ok.mp h
  obtain ⟨_, s₂, hscope, h⟩ := bind_ok.mp h
  obtain ⟨-, rfl⟩ := scope_ok hscope
  obtain ⟨_, s₂, hexp, h⟩ := bind_ok.mp h
  obtain ⟨rfl, rfl⟩ := label_ok hexp
  obtain ⟨_, s₂, hend, h⟩ := bind_ok.mp h
  obtain ⟨rfl, rfl⟩ := label_ok hend
  obtain ⟨_, s₂, hlabel, h⟩ := bind_ok.mp h
  obtain ⟨_, s₃, hcondition, h⟩ := bind_ok.mp h
  obtain ⟨_, s₄, hblock, h⟩ := bind_ok.mp h
  obtain ⟨_, s₅, hjump, h⟩ := bind_ok.mp h
  obtain ⟨rfl, rfl⟩ := pure_ok.mp h
  obtain ⟨e, hevalid, he⟩ := condition_ok hcondition
  obtain ⟨body, hbody, rfl, hbodywalk⟩ := bracedStatements_ok ih hblock
  have hwalk := (keyword_ok hwhile).trans ((write_ok hlabel).trans (he.trans (hbodywalk.trans
    (writeAll_ok hjump))))
  refine ⟨.while_ e body, ⟨hevalid, hbody⟩, rfl, hwalk.congr ?_ ?_⟩
  · simp [Statement.tokens]
  · simp [Statement.code, Mark.text]

/-- **Statements.** Whatever the bound, the functions on statements read whole trees and write
their code. -/
theorem statementsSound (context : Context) (bound : Nat) : StatementsSound context bound := by
  induction bound with
  | zero =>
    refine ⟨fun h => ?_, fun h => ?_, fun h => ?_, fun h => ?_⟩
    · rw [statements] at h
      obtain ⟨rfl, rfl⟩ := pure_ok.mp h
      exact ⟨[], trivial, rfl, Went.refl _⟩
    · rw [statement] at h
      exact absurd h not_unexpected_ok
    · rw [ifStatement] at h
      exact absurd h not_unexpected_ok
    · rw [whileStatement] at h
      exact absurd h not_unexpected_ok
  | succ bound ih =>
    exact ⟨statements_succ_ok ih, statement_succ_ok ih, ifStatement_succ_ok ih,
      whileStatement_succ_ok ih⟩

/-! ## Variables -/

/-- The declarations may follow the earlier ones: where names have to be distinct, they stay so. -/
def MayFollow (options : Options) (earlier new : List Declaration) : Prop :=
  options.strict = true → Declaration.Distinct earlier → Declaration.Distinct (earlier ++ new)

variable {options : Options} {ds new new' : List Declaration} {context' : Context}

theorem mayFollow_nil : MayFollow options ds [] := by
  intro _ h
  rwa [List.append_nil]

theorem MayFollow.append (h : MayFollow options ds new) (h' : MayFollow options (ds ++ new) new') :
    MayFollow options ds (new ++ new') := by
  intro hstrict hds
  rw [← List.append_assoc]
  exact h' hstrict (h hstrict hds)

theorem typeName_ok {text : String} (h : typeName s = .ok text s') :
    ∃ t : TypeName, t.text = text ∧ Went s [t.token] [] s' := by
  unfold typeName at h
  rw [current_bind] at h
  cases hk : s.tokens.current.kind with
  | keyword k =>
    simp only [hk] at h
    split at h
    · rename_i htype
      obtain ⟨_, s₁, hnext, h⟩ := bind_ok.mp h
      obtain ⟨rfl, rfl⟩ := pure_ok.mp h
      obtain ⟨t, htoken, htext⟩ := exists_of_isType htype
      exact ⟨t, htext, (next_ok hnext (hk.trans htoken.symm) (by simp [htoken])).2⟩
    · exact absurd h not_unexpected_ok
  | identifier name =>
    simp only [hk] at h
    exact ⟨.named text, rfl, expectName_ok h⟩
  | _ =>
    simp only [hk] at h
    exact absurd h not_unexpected_ok

/-- A name is added to the table that variables of its kind belong to. -/
theorem declaredName_ok {type : String} {kind : VariableKind}
    (hds : context.table? kind = some (tableOf ds))
    (h : declaredName options type kind context s = .ok context' s') :
    ∃ name, context' = context.setTable kind (tableOf (ds ++ [⟨name, type, kind⟩])) ∧
      MayFollow options ds [⟨name, type, kind⟩] ∧ Went s [.identifier name] [] s' := by
  unfold declaredName at h
  rw [line_bind] at h
  obtain ⟨name, s₁, hname, h⟩ := bind_ok.mp h
  unfold declare at h
  simp only [hds] at h
  split at h
  · exact absurd h not_fail_ok
  · rename_i hnew
    obtain ⟨_, s₂, hnote, h⟩ := bind_ok.mp h
    obtain ⟨rfl, rfl⟩ := pure_ok.mp h
    refine ⟨name, by rw [tableOf_concat], ?_, (expectName_ok hname).trans (note_ok hnote)⟩
    intro hstrict hds
    refine Declaration.distinct_concat.mpr ⟨hds, ?_⟩
    rw [← contains_tableOf]
    simpa [hstrict] using hnew

/-- Names with commas between them. -/
theorem declaredNames_ok {type : String} {kind : VariableKind} {bound : Nat} :
    ∀ {ds : List Declaration} {context context' : Context} {s s' : State},
      context.table? kind = some (tableOf ds) →
      declaredNames options type kind bound context s = .ok context' s' →
      ∃ first more, context' = context.setTable kind
          (tableOf (ds ++ (first :: more).map fun name => ⟨name, type, kind⟩)) ∧
        MayFollow options ds ((first :: more).map fun name => ⟨name, type, kind⟩) ∧
        Went s (.identifier first ::
          more.flatMap (fun name => [.symbol .comma, .identifier name])) [] s' := by
  induction bound with
  | zero =>
    intro ds context context' s s' _ h
    exact absurd h not_unexpected_ok
  | succ bound ih =>
    intro ds context context' s s' hds h
    rw [declaredNames, entering_eq] at h
    obtain ⟨context₁, s₁, hname, h⟩ := bind_ok.mp h
    obtain ⟨first, rfl, hfollows, hfirst⟩ := declaredName_ok hds hname
    obtain ⟨found, s₂, hcomma, hthen⟩ := bind_ok.mp h
    obtain ⟨rfl, hread⟩ | ⟨rfl, -, rfl⟩ := accept_ok hcomma (by simp)
    · simp only [if_true] at hthen
      obtain ⟨second, more, rfl, hfollows', hmore⟩ := ih (Context.table?_setTable hds _) hthen
      refine ⟨first, second :: more, ?_, hfollows.append hfollows',
        (hfirst.trans (hread.trans hmore)).congr ?_ rfl⟩
      · simp [Context.setTable_setTable]
      · simp
    · simp only [Bool.false_eq_true, if_false] at hthen
      obtain ⟨rfl, rfl⟩ := pure_ok.mp hthen
      exact ⟨first, [], rfl, hfollows, hfirst⟩

theorem declaration_ok {kind : VariableKind} (hds : context.table? kind = some (tableOf ds))
    (h : declaration options kind bound context s = .ok context' s') :
    ∃ d : VariableDec, context' = context.setTable kind (tableOf (ds ++ d.declarations kind)) ∧
      MayFollow options ds (d.declarations kind) ∧ Went s d.tokens [] s' := by
  unfold declaration at h
  obtain ⟨text, s₁, htype, h⟩ := bind_ok.mp h
  obtain ⟨t, rfl, ht⟩ := typeName_ok htype
  obtain ⟨context₁, s₂, hnames, h⟩ := bind_ok.mp h
  obtain ⟨_, s₃, hend, h⟩ := bind_ok.mp h
  obtain ⟨rfl, rfl⟩ := pure_ok.mp h
  obtain ⟨first, more, rfl, hfollows, hread⟩ := declaredNames_ok hds hnames
  refine ⟨⟨t, first, more⟩, rfl, hfollows,
    (ht.trans (hread.trans (punctuation_ok hend))).congr ?_ rfl⟩
  simp [VariableDec.tokens]

/-- The variables of a class. They all belong to one table, whatever their kind. -/
theorem classVariables_ok {bound : Nat} :
    ∀ {ds : List Declaration} {context context' : Context} {s s' : State},
      context.classTable = tableOf ds →
      classVariables options bound context s = .ok context' s' →
      ∃ vs : List ClassVariableDec, context' = { context with
          classTable := tableOf (ds ++ vs.flatMap fun d => d.vars.declarations d.storage.kind) } ∧
        MayFollow options ds (vs.flatMap fun d => d.vars.declarations d.storage.kind) ∧
        Went s (vs.flatMap ClassVariableDec.tokens) [] s' := by
  induction bound with
  | zero =>
    intro ds context context' s s' hds h
    obtain ⟨rfl, rfl⟩ := pure_ok.mp h
    exact ⟨[], by simp [← hds], mayFollow_nil, Went.refl s⟩
  | succ bound ih =>
    intro ds context context' s s' hds h
    rw [classVariables, entering_eq, keyword?_bind] at h
    cases hkind : s.tokens.current.kind.keyword?.bind classVariable? with
    | none =>
      simp only [hkind] at h
      obtain ⟨rfl, rfl⟩ := pure_ok.mp h
      exact ⟨[], by simp [← hds], mayFollow_nil, Went.refl s⟩
    | some kind =>
      simp only [hkind] at h
      obtain ⟨k, hk, hclass⟩ := Option.bind_eq_some_iff.mp hkind
      obtain ⟨storage, rfl, rfl⟩ := exists_of_classVariable? hclass
      obtain ⟨_, s₁, hnext, h⟩ := bind_ok.mp h
      obtain ⟨context₁, s₂, hdec, h⟩ := bind_ok.mp h
      have hread := (next_ok hnext (TokenKind.keyword?_eq_some.mp hk) (by simp)).2
      have htable : context.table? storage.kind = some (tableOf ds) := by
        rw [← hds]
        cases storage <;> rfl
      obtain ⟨d, rfl, hfollows, hd⟩ := declaration_ok htable hdec
      rw [storage.setTable_kind] at h
      obtain ⟨vs, rfl, hfollows', hvs⟩ := ih rfl h
      refine ⟨⟨storage, d⟩ :: vs, ?_, hfollows.append hfollows',
        (hread.trans (hd.trans hvs)).congr ?_ rfl⟩
      · simp
      · simp [ClassVariableDec.tokens]

/-- The locals of a subroutine. -/
theorem localVariables_ok {bound : Nat} :
    ∀ {ds : List Declaration} {context context' : Context} {s s' : State},
      context.table? .local_ = some (tableOf ds) →
      localVariables options bound context s = .ok context' s' →
      ∃ vs : List VariableDec, context' = context.setTable .local_
          (tableOf (ds ++ vs.flatMap (VariableDec.declarations .local_))) ∧
        MayFollow options ds (vs.flatMap (VariableDec.declarations .local_)) ∧
        Went s (SubroutineDec.localTokens vs) [] s' := by
  induction bound with
  | zero =>
    intro ds context context' s s' hds h
    obtain ⟨rfl, rfl⟩ := pure_ok.mp h
    exact ⟨[], by simp [Context.setTable_of_table? hds], mayFollow_nil, Went.refl s⟩
  | succ bound ih =>
    intro ds context context' s s' hds h
    rw [localVariables, entering_eq] at h
    obtain ⟨found, s₁, hvar, hthen⟩ := bind_ok.mp h
    obtain ⟨rfl, hread⟩ | ⟨rfl, -, rfl⟩ := accept_ok hvar (by simp)
    · simp only [if_true] at hthen
      obtain ⟨context₁, s₂, hdec, h⟩ := bind_ok.mp hthen
      obtain ⟨d, rfl, hfollows, hd⟩ := declaration_ok hds hdec
      obtain ⟨vs, rfl, hfollows', hvs⟩ := ih (Context.table?_setTable hds _) h
      refine ⟨d :: vs, ?_, hfollows.append hfollows', (hread.trans (hd.trans hvs)).congr ?_ rfl⟩
      · simp [Context.setTable_setTable]
      · simp [SubroutineDec.localTokens]
    · simp only [Bool.false_eq_true, if_false] at hthen
      obtain ⟨rfl, rfl⟩ := pure_ok.mp hthen
      exact ⟨[], by simp [Context.setTable_of_table? hds], mayFollow_nil, Went.refl _⟩

/-- Parameters with commas between them. -/
theorem parameters_ok {bound : Nat} :
    ∀ {ds : List Declaration} {context context' : Context} {s s' : State},
      context.table? .argument = some (tableOf ds) →
      parameters options bound context s = .ok context' s' →
      ∃ ps : List Parameter, context' = context.setTable .argument
          (tableOf (ds ++ ps.map fun p => ⟨p.name, p.type.text, .argument⟩)) ∧
        MayFollow options ds (ps.map fun p => ⟨p.name, p.type.text, .argument⟩) ∧
        Went s (Parameter.listTokens ps) [] s' ∧ ps ≠ [] := by
  induction bound with
  | zero =>
    intro ds context context' s s' _ h
    exact absurd h not_unexpected_ok
  | succ bound ih =>
    intro ds context context' s s' hds h
    rw [parameters, entering_eq] at h
    obtain ⟨text, s₁, htype, h⟩ := bind_ok.mp h
    obtain ⟨t, rfl, ht⟩ := typeName_ok htype
    obtain ⟨context₁, s₂, hname, h⟩ := bind_ok.mp h
    obtain ⟨name, rfl, hfollows, hread⟩ := declaredName_ok hds hname
    obtain ⟨found, s₃, hcomma, hthen⟩ := bind_ok.mp h
    have hfirst := ht.trans hread
    obtain ⟨rfl, hsep⟩ | ⟨rfl, -, rfl⟩ := accept_ok hcomma (by simp)
    · simp only [if_true] at hthen
      obtain ⟨ps, rfl, hfollows', hps, hne⟩ := ih (Context.table?_setTable hds _) hthen
      refine ⟨⟨t, name⟩ :: ps, ?_, hfollows.append hfollows',
        (hfirst.trans (hsep.trans hps)).congr ?_ rfl, by simp⟩
      · simp [Context.setTable_setTable]
      · obtain ⟨q, more, rfl⟩ := List.exists_cons_of_ne_nil hne
        simp [Parameter.listTokens, Parameter.tokens]
    · simp only [Bool.false_eq_true, if_false] at hthen
      obtain ⟨rfl, rfl⟩ := pure_ok.mp hthen
      exact ⟨[⟨t, name⟩], rfl, hfollows, hfirst, by simp⟩

theorem parameterList_ok (hds : context.table? .argument = some (tableOf ds))
    (h : parameterList options bound context s = .ok context' s') :
    ∃ ps : List Parameter, context' = context.setTable .argument
        (tableOf (ds ++ ps.map fun p => ⟨p.name, p.type.text, .argument⟩)) ∧
      MayFollow options ds (ps.map fun p => ⟨p.name, p.type.text, .argument⟩) ∧
      Went s (Parameter.listTokens ps) [] s' := by
  unfold parameterList at h
  rw [symbol?_bind] at h
  split at h
  · obtain ⟨rfl, rfl⟩ := pure_ok.mp h
    exact ⟨[], by simp [Context.setTable_of_table? hds], mayFollow_nil, Went.refl s⟩
  · obtain ⟨ps, hcontext, hfollows, hps, -⟩ := parameters_ok hds h
    exact ⟨ps, hcontext, hfollows, hps⟩

/-! ## Classes -/

theorem enter_ok {className name : String} {kind : SubroutineKind} {scope : Subroutine}
    (h : enter className name kind s = .ok scope s') :
    scope = Subroutine.enter className name kind ∧ Went s [] [] s' := by
  unfold enter at h
  by_cases hmethod : kind = .method
  · simp only [hmethod, if_true] at h
    obtain ⟨_, s₁, hreceiver, h⟩ := bind_ok.mp h
    obtain ⟨_, s₂, hnote, h⟩ := bind_ok.mp h
    obtain ⟨rfl, rfl⟩ := pure_ok.mp h
    rw [hmethod]
    exact ⟨rfl, (note_ok hreceiver).trans (note_ok hnote)⟩
  · simp only [hmethod, if_false] at h
    obtain ⟨_, s₁, hnote, h⟩ := bind_ok.mp h
    obtain ⟨rfl, rfl⟩ := pure_ok.mp h
    exact ⟨rfl, note_ok hnote⟩

/-- The result type of a subroutine, which is not kept. -/
theorem result_ok {u : Unit}
    (h : (accept (.keyword .void) >>= fun found =>
      if found then pure () else typeName >>= fun _ => pure ()) s = .ok u s') :
    ∃ result : Option TypeName,
      Went s [(result.map TypeName.token).getD (.keyword .void)] [] s' := by
  obtain ⟨found, s₁, hvoid, hthen⟩ := bind_ok.mp h
  obtain ⟨rfl, hread⟩ | ⟨rfl, -, rfl⟩ := accept_ok hvoid (by simp)
  · simp only [if_true] at hthen
    obtain ⟨rfl, rfl⟩ := pure_ok.mp hthen
    exact ⟨none, hread⟩
  · simp only [Bool.false_eq_true, if_false] at hthen
    obtain ⟨text, s₂, htype, h⟩ := bind_ok.mp hthen
    obtain ⟨rfl, rfl⟩ := pure_ok.mp h
    obtain ⟨t, -, ht⟩ := typeName_ok htype
    exact ⟨some t, ht⟩

theorem showTable_ok {title : String} {table : Table} {u : Unit}
    (h : showTable options title table s = .ok u s') :
    Went s [] (if options.annotate then tableListing title table else []) s' := by
  unfold showTable at h
  cases hannotate : options.annotate with
  | true =>
    rw [if_pos hannotate] at h
    exact writeLines_ok h
  | false =>
    rw [if_neg (by simp [hannotate])] at h
    obtain ⟨-, rfl⟩ := pure_ok.mp h
    exact Went.refl s

/-- The code of a subroutine, from its number of locals to its last statement. -/
theorem body_ok (c : ClassDec) (d : SubroutineDec) {u : Unit}
    (h : body options (d.context c) bound s = .ok u s') :
    ∃ ts, Statement.BlockValid (d.environment c) ts ∧
      Went s (Statement.blockTokens ts)
        (SubroutineDec.lines options.annotate c { d with body := ts }) s' := by
  unfold body at h
  rw [scope_of_some (SubroutineDec.subroutine_context c d), pure_bind] at h
  obtain ⟨_, s₁, hfunction, h⟩ := bind_ok.mp h
  have hcount : (d.entered c).table.count .local_ = wrap16 d.localVariables.length := by
    rw [← d.countP_local_scope c.name, ← count_tableOf]
    rfl
  obtain ⟨_, s₂, hlisting, h⟩ := bind_ok.mp h
  obtain ⟨_, s₃, hentry, h⟩ := bind_ok.mp h
  obtain ⟨_, s₄, hstatements, h⟩ := bind_ok.mp h
  obtain ⟨rfl, rfl⟩ := pure_ok.mp h
  obtain ⟨ts, hvalid, -, hts⟩ := (statementsSound (d.context c) bound).statements hstatements
  rw [environment_context] at hvalid hts
  have hentry : Went s₂ [] ((d.entry c).map .instruction) s₃ := prologue_eq c d ▸ writeAll_ok hentry
  refine ⟨ts, hvalid, ((write_ok hfunction).trans ((showTable_ok hlisting).trans (hentry.trans
    hts))).congr rfl ?_⟩
  rw [hcount]
  unfold SubroutineDec.lines
  rw [List.map_append]
  rfl

theorem distinct_receiver (className : String) (d : SubroutineDec) :
    Declaration.Distinct (d.receiver className) := by
  unfold SubroutineDec.receiver Declaration.Distinct
  cases d.kind <;> simp

/-- A subroutine whose leading keyword has been read. -/
theorem subroutine_ok (c : ClassDec) {kind : SubroutineKind} {u : Unit}
    (h : subroutine options c.context bound kind s = .ok u s') :
    ∃ (d : SubroutineDec) (ks : List TokenKind),
      d.tokens = .keyword kind.keyword :: ks ∧ d.Admitted options c ∧
      Went s ks (d.lines options.annotate c) s' := by
  unfold subroutine at h
  have hsplit : ∃ s₁, (accept (.keyword .void) >>= fun found =>
        if found then pure () else typeName >>= fun _ => pure ()) s = .ok () s₁ ∧
      (expectName >>= fun name => enter c.name name kind >>= fun entered =>
        parenthesized (parameterList options bound (c.context.inside entered)) >>= fun context =>
        braced (localVariables options bound context >>= fun context =>
          body options context bound)) s₁ = .ok u s' := by
    obtain ⟨found, s₁, hvoid, h⟩ := bind_ok.mp h
    cases found with
    | true => exact ⟨s₁, bind_ok.mpr ⟨true, s₁, hvoid, rfl⟩, h⟩
    | false =>
      obtain ⟨text, s₂, htype, h⟩ := bind_ok.mp h
      exact ⟨s₂, bind_ok.mpr ⟨false, s₁, hvoid, bind_ok.mpr ⟨text, s₂, htype, rfl⟩⟩, h⟩
  obtain ⟨s₁, hresult, h⟩ := hsplit
  obtain ⟨result, hresult⟩ := result_ok hresult
  obtain ⟨name, s₂, hname, h⟩ := bind_ok.mp h
  obtain ⟨entered, s₃, henter, h⟩ := bind_ok.mp h
  obtain ⟨rfl, hnotes⟩ := enter_ok henter
  obtain ⟨context₁, s₄, hparens, h⟩ := bind_ok.mp h
  obtain ⟨s₅, s₆, hopen, hlist, hclose⟩ := between_ok hparens
  have hreceiver := SubroutineDec.table?_inside c ⟨kind, result, name, [], [], []⟩
  obtain ⟨ps, rfl, hfollows, hps⟩ := parameterList_ok hreceiver hlist
  obtain ⟨s₇, s₈, hopen', hbody, hclose'⟩ := between_ok h
  obtain ⟨context₂, s₉, hlocals, hbody⟩ := bind_ok.mp hbody
  obtain ⟨vs, rfl, hfollows', hvs⟩ := localVariables_ok rfl hlocals
  have hbody : body options (SubroutineDec.context c ⟨kind, result, name, ps, vs, []⟩) bound s₉ =
      .ok u s₈ := by
    rw [List.append_assoc] at hbody
    exact hbody
  obtain ⟨ts, hvalid, hts⟩ := body_ok c ⟨kind, result, name, ps, vs, []⟩ hbody
  refine ⟨⟨kind, result, name, ps, vs, ts⟩, _, rfl, ⟨hvalid, ?_⟩, ?_⟩
  · intro hstrict
    exact hfollows.append hfollows' hstrict
      (distinct_receiver c.name ⟨kind, result, name, [], [], []⟩)
  · have hwalk := hresult.trans ((expectName_ok hname).trans (hnotes.trans
      ((hopen.enclosed hps hclose).trans (hopen'.enclosed (hvs.trans hts) hclose'))))
    exact hwalk.congr rfl rfl

/-- The subroutines of a class. -/
theorem subroutines_ok (c : ClassDec) {bound : Nat} :
    ∀ {u : Unit} {s s' : State},
      subroutines options c.context bound s = .ok u s' →
      ∃ ds : List SubroutineDec, (∀ d ∈ ds, d.Admitted options c) ∧
        Went s (ds.flatMap SubroutineDec.tokens)
          (ds.flatMap (SubroutineDec.lines options.annotate c)) s' := by
  induction bound with
  | zero =>
    intro u s s' h
    obtain ⟨rfl, rfl⟩ := pure_ok.mp h
    exact ⟨[], by simp, Went.refl s⟩
  | succ bound ih =>
    intro u s s' h
    rw [subroutines, entering_eq] at h
    rw [keyword?_bind] at h
    cases hkind : s.tokens.current.kind.keyword?.bind subroutineKind? with
    | none =>
      simp only [hkind] at h
      obtain ⟨rfl, rfl⟩ := pure_ok.mp h
      exact ⟨[], by simp, Went.refl s⟩
    | some kind =>
      simp only [hkind] at h
      obtain ⟨k, hk, hsub⟩ := Option.bind_eq_some_iff.mp hkind
      obtain rfl := keyword_of_subroutineKind? hsub
      obtain ⟨_, s₁, hnext, h⟩ := bind_ok.mp h
      obtain ⟨_, s₂, hsubroutine, h⟩ := bind_ok.mp h
      have hread := (next_ok hnext (TokenKind.keyword?_eq_some.mp hk) (by simp)).2
      obtain ⟨d, ks, htokens, hadmitted, hd⟩ := subroutine_ok c hsubroutine
      obtain ⟨ds, hall, hds⟩ := ih h
      refine ⟨d :: ds, ?_, (hread.trans (hd.trans hds)).congr ?_ ?_⟩
      · intro d' hd'
        obtain rfl | hd' := List.mem_cons.mp hd'
        · exact hadmitted
        · exact hall d' hd'
      · simp [htokens]
      · simp

theorem finish_ok {u : Unit} (h : finish s = .ok u s') :
    s.tokens.current.kind = .eof ∧ Went s [] [] s' := by
  unfold finish at h
  rw [current_bind] at h
  split at h
  · rename_i hk
    exact ⟨hk, emit_ok h⟩
  · exact absurd h not_unexpected_ok

theorem classDeclaration_ok {u : Unit} (h : classDeclaration options bound s = .ok u s') :
    ∃ c : ClassDec, c.Admitted options ∧ Went s c.tokens (c.lines options.annotate) s' := by
  unfold classDeclaration at h
  obtain ⟨_, s₁, hclass, h⟩ := bind_ok.mp h
  obtain ⟨name, s₂, hname, h⟩ := bind_ok.mp h
  obtain ⟨_, s₃, hnote, h⟩ := bind_ok.mp h
  obtain ⟨s₅, s₆, hopen, hin, hclose⟩ := between_ok h
  obtain ⟨context, s₇, hvariables, hin⟩ := bind_ok.mp hin
  obtain ⟨vs, rfl, hfollows, hvs⟩ := classVariables_ok tableOf_nil.symm hvariables
  obtain ⟨_, s₈, hlisting, hin⟩ := bind_ok.mp hin
  obtain ⟨ds, hall, hds⟩ := subroutines_ok ⟨name, vs, []⟩ hin
  have hwalk := (keyword_ok hclass).trans ((expectName_ok hname).trans ((note_ok hnote).trans
    (hopen.enclosed (hvs.trans ((showTable_ok hlisting).trans hds)) hclose)))
  refine ⟨⟨name, vs, ds⟩, ⟨hall, fun hstrict => hfollows hstrict List.nodup_nil⟩,
    hwalk.congr ?_ rfl⟩
  simp [ClassDec.tokens]

/-- **Classes.** A pass over a whole unit that succeeds has read the tokens of a class up to the end
of the input, and has written the lines of that class. -/
theorem compilationUnit_ok {u : Unit} (h : compilationUnit options bound s = .ok u s') :
    ∃ c : ClassDec, c.Admitted options ∧ Went s c.tokens (c.lines options.annotate) s' ∧
      s'.tokens.current.kind = .eof := by
  obtain ⟨_, s₁, hclass, h⟩ := bind_ok.mp h
  obtain ⟨c, hadmitted, hwent⟩ := classDeclaration_ok hclass
  obtain ⟨hend, hfinish⟩ := finish_ok h
  have hsame : s'.tokens = s₁.tokens := hfinish.reads.symm
  exact ⟨c, hadmitted, (hwent.trans hfinish).congr (List.append_nil _) (List.append_nil _),
    hsame ▸ hend⟩

end Pass

end Jack
