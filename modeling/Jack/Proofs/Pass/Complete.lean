import Jack.Proofs.Pass.Walk
import Jack.Proofs.Pass.Words
import Jack.Proofs.Syntax.Valid

/-!
# A pass succeeds on the tokens of a valid tree

The converse of soundness. On a stream that reads the tokens of a valid tree, a pass succeeds, stops
right after them and has written the code of the tree:

1. expressions, by recursion on the tree (`goes_term`, `goes_expression`);
2. statements (`goes_statement`);
3. declarations (`goes_compilationUnit`).

One token decides how to go on, so each statement asks for a token that can follow the tree. The
bound on the recursion has to be twice the number of tokens, and one more for each function that
passes it on without reading.
-/

namespace Jack

open TokenStream (Reads reads_append reads_nil)
open Environment (read_of_find? write_of_find?)

namespace Pass

variable {a b : TokenStream} {context : Context} {bound : Nat}

/-! ## Names and calls -/

theorem goes_variableNamed {name : String} {line : Nat} {v : Variable}
    (h : context.environment.find? name = some v) (a : TokenStream) :
    Goes (variableNamed context name line) a v [] a := by
  have hresolve : context.resolve? name = some v := h
  unfold variableNamed
  simp only [hresolve]
  exact goes_pure v a

theorem goes_stringConstant {characters : String} (h : characters.toList.length ≤ maxConstant)
    (a : TokenStream) :
    Goes (stringConstant characters) a () ((stringText characters.toList).map .instruction) a := by
  unfold stringConstant
  rw [if_pos h]
  exact goes_writeAll _ a

theorem goes_callee {receiver : Option String} {member name : String} {ks : List TokenKind}
    {line : Nat} (hhead : Call.headTokens receiver member = .identifier name :: ks)
    (h : a.Reads ks b) (hb : b.current.kind = .symbol .leftParen) :
    Goes (callee context name line) a
      (context.environment.routine receiver member, context.environment.implicit receiver)
      ((context.environment.receiver receiver).map .instruction) b := by
  refine goes_symbol?_bind ?_
  cases receiver with
  | none =>
    simp only [Call.headTokens, List.cons.injEq, TokenKind.identifier.injEq] at hhead
    obtain ⟨rfl, rfl⟩ := hhead
    rw [reads_nil] at h
    subst h
    simp only [hb, TokenKind.symbol?]
    exact (goes_write _ a).bind (goes_pure _ a)
  | some r =>
    simp only [Call.headTokens, List.cons.injEq, TokenKind.identifier.injEq] at hhead
    obtain ⟨rfl, rfl⟩ := hhead
    obtain ⟨a₁, hdot, hmember⟩ := h.uncons
    simp only [hdot.head, TokenKind.symbol?]
    refine (goes_next hdot).step ((goes_expectName hmember).step ?_)
    unfold Environment.routine Environment.implicit Environment.receiver Environment.read
    cases hv : context.resolve? r with
    | some v =>
      have hfind : context.environment.find? r = some v := hv
      simp only [hfind]
      exact (goes_write _ b).bind (goes_pure _ b)
    | none =>
      have hfind : context.environment.find? r = none := hv
      simp only [hfind]
      exact (goes_note _ b).step (goes_pure _ b)

theorem goes_call (line : Nat) {arguments : Pass Nat} {receiver : Option String}
    {member name : String} {es : List Expression} {ks : List TokenKind}
    (hhead : Call.headTokens receiver member = .identifier name :: ks)
    (h : a.Reads (ks ++ inParens (Call.argumentTokens es)) b)
    (hcount : context.environment.implicit receiver + es.length ≤ maxArguments)
    (harg : ∀ {a' b'}, a'.Reads (Call.argumentTokens es) b' →
      b'.current.kind = .symbol .rightParen →
      Goes arguments a' es.length
        ((Call.argumentCode context.environment es).map .instruction) b') :
    Goes (call context arguments name line) a ()
      (((Call.mk receiver member es).code context.environment).map .instruction) b := by
  obtain ⟨a₁, hks, h⟩ := reads_append.mp h
  obtain ⟨a₂, hopen, h⟩ := h.uncons
  obtain ⟨a₃, hes, hclose⟩ := reads_append.mp h
  have hle : es.length + context.environment.implicit receiver ≤ maxArguments := by omega
  apply Goes.congr
  · apply (goes_callee hhead hks hopen.head).bind
    apply (goes_punctuation hopen).step
    apply (harg hes hclose.head).bind
    simp only [hle]
    exact (goes_punctuation hclose).step (goes_write _ b)
  · simp [Call.code, Nat.add_comm]

/-! ## Expressions -/

/-- Past the last operand there is no operator. -/
theorem operator?_of_endsExpression {k : TokenKind} (h : k.EndsExpression) :
    k.symbol?.bind binaryOperator? = none := by
  cases hop : k.symbol?.bind binaryOperator? with
  | none => rfl
  | some i =>
    obtain ⟨y, hy, hi⟩ := Option.bind_eq_some_iff.mp hop
    obtain ⟨op, rfl, -⟩ := exists_of_binaryOperator? hi
    exact absurd (TokenKind.symbol?_eq_some.mp hy) (h.2 op)

/-- What follows the operands so far ends the last of them. -/
theorem endsTerm_of_reads_rest {rest : List (BinaryOperator × Term)}
    (h : a.Reads (Expression.restTokens rest) b) (hb : b.current.kind.EndsTerm) :
    a.current.kind.EndsTerm := by
  cases rest with
  | nil =>
    rw [Expression.restTokens, reads_nil] at h
    rwa [h]
  | cons x rest =>
    rw [h.head]
    exact TokenKind.endsTerm_operator x.1

/-- What follows an argument ends it. -/
theorem endsExpression_of_reads_more {es : List Expression} (h : a.Reads (Call.moreTokens es) b)
    (hb : b.current.kind = .symbol .rightParen) : a.current.kind.EndsExpression := by
  cases es with
  | nil =>
    rw [Call.moreTokens, reads_nil] at h
    rw [h, hb]
    exact TokenKind.endsExpression_rightParen
  | cons e es =>
    rw [h.head]
    exact TokenKind.endsExpression_comma

mutual

theorem goes_term : ∀ (t : Term) (bound : Nat) {a b : TokenStream},
    t.Valid context.environment → a.Reads t.tokens b → b.current.kind.EndsTerm →
    2 * t.tokens.length + 1 ≤ bound →
    Goes (term context bound) a () ((t.code context.environment).map .instruction) b
  | .integer value digits, bound, a, b, _, h, _, hbound => by
    obtain ⟨n, rfl⟩ := Nat.exists_eq_add_one.mpr (by omega : 0 < bound)
    refine goes_current_bind ?_
    simp only [h.head]
    exact (goes_next h).step (goes_write _ b)
  | .string characters, bound, a, b, hvalid, h, _, hbound => by
    obtain ⟨n, rfl⟩ := Nat.exists_eq_add_one.mpr (by omega : 0 < bound)
    refine goes_current_bind ?_
    simp only [h.head]
    exact (goes_next h).step (goes_stringConstant hvalid b)
  | .word w, bound, a, b, _, h, _, hbound => by
    obtain ⟨n, rfl⟩ := Nat.exists_eq_add_one.mpr (by omega : 0 < bound)
    refine goes_current_bind ?_
    simp only [h.head, keywordConstant?_keyword]
    refine ((goes_writeAll w.code a).bind ((goes_next h).step (goes_pure () b))).congr ?_
    rw [List.append_nil, Term.code]
  | .var name, bound, a, b, hvalid, h, hb, hbound => by
    obtain ⟨n, rfl⟩ := Nat.exists_eq_add_one.mpr (by omega : 0 < bound)
    obtain ⟨v, hfind⟩ := Option.isSome_iff_exists.mp hvalid
    refine goes_current_bind ?_
    simp only [h.head]
    refine (goes_next h).step (goes_symbol?_bind ?_)
    rw [Term.code, read_of_find? hfind]
    -- the name stands alone: none of the symbols that go on after a name follows
    split
    · rename_i hy
      exact absurd (TokenKind.symbol?_eq_some.mp hy) hb.1
    · rename_i hy
      exact absurd (TokenKind.symbol?_eq_some.mp hy) hb.2.1
    · rename_i hy
      exact absurd (TokenKind.symbol?_eq_some.mp hy) hb.2.2
    · exact (goes_variableNamed hfind b).step (goes_write _ b)
  | .element name index, bound, a, b, hvalid, h, _, hbound => by
    obtain ⟨n, rfl⟩ := Nat.exists_eq_add_one.mpr (by omega : 0 < bound)
    obtain ⟨v, hfind⟩ := Option.isSome_iff_exists.mp hvalid.1
    obtain ⟨a₁, hname, h⟩ := h.uncons
    obtain ⟨a₂, hopen, h⟩ := h.uncons
    obtain ⟨a₃, hindex, hclose⟩ := reads_append.mp h
    simp only [Term.tokens, enclosed, List.length_cons, List.length_append] at hbound
    have hexp := goes_expression index n hvalid.2 hindex
      (hclose.head ▸ TokenKind.endsExpression_rightBracket) (by omega)
    refine goes_current_bind ?_
    simp only [hname.head]
    refine (goes_next hname).step (goes_symbol?_bind ?_)
    simp only [hopen.head, TokenKind.symbol?]
    apply Goes.congr
    · apply (goes_variableNamed hfind a₁).step
      apply (goes_next hopen).step
      apply (goes_write _ a₂).bind
      apply hexp.bind
      exact (goes_punctuation hclose).step (goes_writeAll _ b)
    · simp [Term.code, read_of_find? hfind, Instruction.popTarget, Instruction.pushIndirect]
  | .call (.mk receiver member es), bound, a, b, hvalid, h, _, hbound => by
    obtain ⟨n, rfl⟩ := Nat.exists_eq_add_one.mpr (by omega : 0 < bound)
    obtain ⟨name, ks, hks⟩ := Call.headTokens_cons receiver member
    simp only [Term.tokens, Call.tokens, hks, List.cons_append] at h hbound
    simp only [enclosed, List.length_cons, List.length_append] at hbound
    obtain ⟨a₁, hname, hafter⟩ := h.uncons
    have hargs : ∀ {a' b'}, a'.Reads (Call.argumentTokens es) b' →
        b'.current.kind = .symbol .rightParen →
        Goes (arguments context n) a' es.length
          ((Call.argumentCode context.environment es).map .instruction) b' := fun hes hclose =>
      goes_arguments es n hvalid.1 hes hclose (by have := hvalid.2; omega) (by omega)
    have hcall := goes_call a.current.line hks hafter hvalid.2 hargs
    have hnext : a₁.current.kind = .symbol .leftParen ∨ a₁.current.kind = .symbol .dot := by
      cases receiver with
      | none =>
        cases hks
        exact .inl hafter.head
      | some r =>
        cases hks
        exact .inr hafter.head
    refine goes_current_bind ?_
    simp only [hname.head]
    refine (goes_next hname).step (goes_symbol?_bind ?_)
    obtain hk | hk := hnext
    · simp only [hk, TokenKind.symbol?]
      exact hcall
    · simp only [hk, TokenKind.symbol?]
      exact hcall
  | .parenthesized inner, bound, a, b, hvalid, h, _, hbound => by
    obtain ⟨n, rfl⟩ := Nat.exists_eq_add_one.mpr (by omega : 0 < bound)
    simp only [Term.tokens, enclosed, List.length_cons, List.length_append] at hbound
    refine goes_current_bind ?_
    simp only [h.head]
    refine goes_between h fun hin hclose => ?_
    exact goes_expression inner n hvalid hin (hclose ▸ TokenKind.endsExpression_rightParen)
      (by omega)
  | .unary op operand, bound, a, b, hvalid, h, hb, hbound => by
    obtain ⟨n, rfl⟩ := Nat.exists_eq_add_one.mpr (by omega : 0 < bound)
    obtain ⟨a₁, hop, h⟩ := h.uncons
    rw [Term.tokens, List.length_cons] at hbound
    have hoperand := goes_term operand n hvalid h hb (by omega)
    have hwalk : Goes (next >>= fun _ => term context n >>= fun _ => write op.code) a ()
        (((Term.unary op operand).code context.environment).map .instruction) b := by
      refine ((goes_next hop).step (hoperand.bind (goes_write _ b))).congr ?_
      rw [Term.code, List.map_append]
      rfl
    refine goes_current_bind ?_
    simp only [hop.head]
    cases op <;> exact hwalk

theorem goes_expression : ∀ (e : Expression) (bound : Nat) {a b : TokenStream},
    e.Valid context.environment → a.Reads e.tokens b → b.current.kind.EndsExpression →
    2 * e.tokens.length + 2 ≤ bound →
    Goes (expression context bound) a () ((e.code context.environment).map .instruction) b
  | .mk first rest, bound, a, b, hvalid, h, hb, hbound => by
    obtain ⟨n, rfl⟩ := Nat.exists_eq_add_one.mpr (by omega : 0 < bound)
    obtain ⟨a₁, hfirst, hrest⟩ := reads_append.mp h
    rw [Expression.tokens, List.length_append] at hbound
    have hterm := goes_term first n hvalid.1 hfirst (endsTerm_of_reads_rest hrest hb.1) (by omega)
    have hmore := goes_operations rest n hvalid.2 hrest hb (by omega)
    refine (hterm.bind hmore).congr ?_
    rw [Expression.code, List.map_append]

theorem goes_operations : ∀ (rest : List (BinaryOperator × Term)) (bound : Nat)
    {a b : TokenStream}, Expression.RestValid context.environment rest →
    a.Reads (Expression.restTokens rest) b → b.current.kind.EndsExpression →
    2 * (Expression.restTokens rest).length + 1 ≤ bound →
    Goes (operations context bound) a ()
      ((Expression.restCode context.environment rest).map .instruction) b
  | [], bound, a, b, _, h, hb, hbound => by
    obtain ⟨n, rfl⟩ := Nat.exists_eq_add_one.mpr (by omega : 0 < bound)
    rw [Expression.restTokens, reads_nil] at h
    subst h
    refine goes_symbol?_bind ?_
    simp only [operator?_of_endsExpression hb]
    exact goes_pure () a
  | (op, operand) :: rest, bound, a, b, hvalid, h, hb, hbound => by
    obtain ⟨n, rfl⟩ := Nat.exists_eq_add_one.mpr (by omega : 0 < bound)
    obtain ⟨a₁, hop, h⟩ := h.uncons
    obtain ⟨a₂, hoperand, hrest⟩ := reads_append.mp h
    simp only [Expression.restTokens, List.length_cons, List.length_append] at hbound
    have hterm := goes_term operand n hvalid.1 hoperand (endsTerm_of_reads_rest hrest hb.1)
      (by omega)
    have hmore := goes_operations rest n hvalid.2 hrest hb (by omega)
    refine goes_symbol?_bind ?_
    simp only [hop.head, TokenKind.symbol?, Option.bind_some, binaryOperator?_symbol]
    refine ((goes_next hop).step (hterm.bind ((goes_write _ a₂).bind hmore))).congr ?_
    simp [Expression.restCode]

theorem goes_arguments : ∀ (es : List Expression) (bound : Nat) {a b : TokenStream},
    Call.ArgumentsValid context.environment es → a.Reads (Call.argumentTokens es) b →
    b.current.kind = .symbol .rightParen → es.length ≤ maxArguments →
    2 * (Call.argumentTokens es).length + 3 ≤ bound →
    Goes (arguments context bound) a es.length
      ((Call.argumentCode context.environment es).map .instruction) b
  | [], bound, a, b, _, h, hb, _, hbound => by
    obtain ⟨n, rfl⟩ := Nat.exists_eq_add_one.mpr (by omega : 0 < bound)
    rw [Call.argumentTokens, reads_nil] at h
    subst h
    refine goes_symbol?_bind ?_
    rw [if_pos (TokenKind.symbol?_eq_some.mpr hb)]
    exact goes_pure 0 a
  | e :: es, bound, a, b, hvalid, h, hb, hcount, hbound => by
    obtain ⟨n, rfl⟩ := Nat.exists_eq_add_one.mpr (by omega : 0 < bound)
    obtain ⟨k, ks, hks, hstart⟩ := e.tokens_cons
    have hfirst : ¬ a.current.kind.symbol? = some .rightParen := by
      rw [Call.argumentTokens, hks] at h
      rw [TokenKind.symbol?_eq_some, h.head]
      intro hk
      simpa using hstart _ hk
    obtain ⟨a₁, he, hmore⟩ := reads_append.mp h
    rw [Call.argumentTokens, List.length_append] at hbound
    rw [List.length_cons] at hcount ⊢
    have hexp := goes_expression e n hvalid.1 he (endsExpression_of_reads_more hmore hb) (by omega)
    have hrest := goes_moreArguments es n 1 hvalid.2 hmore hb (by omega) (by omega)
    refine goes_symbol?_bind ?_
    rw [if_neg hfirst, Nat.add_comm]
    refine (hexp.bind hrest).congr ?_
    rw [Call.argumentCode, List.map_append]

theorem goes_moreArguments : ∀ (es : List Expression) (bound seen : Nat) {a b : TokenStream},
    Call.ArgumentsValid context.environment es → a.Reads (Call.moreTokens es) b →
    b.current.kind = .symbol .rightParen → seen + es.length ≤ maxArguments →
    2 * (Call.moreTokens es).length + 1 ≤ bound →
    Goes (moreArguments context bound seen) a (seen + es.length)
      ((Call.argumentCode context.environment es).map .instruction) b
  | [], bound, seen, a, b, _, h, hb, _, hbound => by
    obtain ⟨n, rfl⟩ := Nat.exists_eq_add_one.mpr (by omega : 0 < bound)
    rw [Call.moreTokens, reads_nil] at h
    subst h
    exact (goes_accept_ne (by rw [hb]; simp)).step (goes_pure seen a)
  | e :: es, bound, seen, a, b, hvalid, h, hb, hcount, hbound => by
    obtain ⟨n, rfl⟩ := Nat.exists_eq_add_one.mpr (by omega : 0 < bound)
    obtain ⟨a₁, hcomma, h⟩ := h.uncons
    obtain ⟨a₂, he, hmore⟩ := reads_append.mp h
    simp only [Call.moreTokens, List.length_cons, List.length_append] at hbound
    rw [List.length_cons, ← Nat.add_assoc, Nat.add_right_comm] at hcount ⊢
    have hexp := goes_expression e n hvalid.1 he (endsExpression_of_reads_more hmore hb) (by omega)
    have hrest := goes_moreArguments es n (seen + 1) hvalid.2 hmore hb hcount (by omega)
    have hle : seen + 1 ≤ maxArguments := by omega
    apply Goes.congr
    · apply (goes_accept hcomma).step
      apply hexp.bind
      simp only [hle]
      exact hrest
    · rw [Call.argumentCode, List.map_append]

end

/-! ## Statements -/

theorem goes_scope {subroutine : Subroutine} (h : context.subroutine = some subroutine)
    (a : TokenStream) : Goes (scope context) a subroutine [] a := by
  rw [scope_of_some h]
  exact goes_pure subroutine a

theorem goes_label {subroutine : Subroutine} (h : context.subroutine = some subroutine)
    (mark : Mark) (number : Nat) (a : TokenStream) :
    Goes (label context mark number) a (context.environment.label mark.text number) [] a := by
  rw [label_of_some h, label_environment h]
  exact goes_pure _ a

theorem goes_condition (bound : Nat) {e : Expression} (target : String)
    (hvalid : e.Valid context.environment) (h : a.Reads (inParens e.tokens) b)
    (hbound : 2 * e.tokens.length + 2 ≤ bound) :
    Goes (condition context bound target) a ()
      (List.map .instruction (e.code context.environment ++ [.operate .not, .ifGoto target]))
      b := by
  have hparens : Goes (parenthesized (expression context bound)) a ()
      ((e.code context.environment).map .instruction) b :=
    goes_between h fun hin hclose =>
      goes_expression e bound hvalid hin (hclose ▸ TokenKind.endsExpression_rightParen) hbound
  refine (hparens.bind (goes_writeAll _ b)).congr ?_
  rw [List.map_append]

/-- Where statements start, there is a statement or the brace after the last one. -/
theorem followsStatement_of_reads {ts : List Statement} (h : a.Reads (Statement.blockTokens ts) b)
    (hb : b.current.kind = .symbol .rightBrace) : a.current.kind.FollowsStatement := by
  cases ts with
  | nil =>
    rw [Statement.blockTokens, reads_nil] at h
    rw [h]
    exact .inl hb
  | cons t ts =>
    obtain ⟨k, ks, hks, hstarts⟩ := t.tokens_cons
    rw [Statement.blockTokens, hks] at h
    exact .inr ⟨k, h.head, hstarts⟩

theorem goes_letStatement (bound : Nat) {name : String} {value : Expression} (n : Labels)
    (hvalid : (Statement.let_ name value).Valid context.environment)
    (h : a.Reads (Statement.let_ name value).tokens b)
    (hbound : 2 * value.tokens.length + 2 ≤ bound) :
    Goes (letStatement context bound) a ()
      (((Statement.let_ name value).code context.environment n).map .instruction) b := by
  obtain ⟨v, hfind⟩ := Option.isSome_iff_exists.mp hvalid.1
  obtain ⟨a₁, hlet, h⟩ := h.uncons
  obtain ⟨a₂, hname, h⟩ := h.uncons
  obtain ⟨a₃, hequal, h⟩ := h.uncons
  obtain ⟨a₄, hvalue, hend⟩ := reads_append.mp h
  have hexp := goes_expression value bound hvalid.2 hvalue
    (hend.head ▸ TokenKind.endsExpression_semicolon) hbound
  apply Goes.congr
  · apply (goes_keyword hlet).step
    apply goes_line_bind
    apply (goes_expectName hname).step
    apply (goes_variableNamed hfind a₂).step
    apply (goes_accept_ne (by rw [hequal.head]; simp)).step
    apply (goes_punctuation hequal).step
    apply hexp.bind
    exact (goes_write _ a₄).bind (goes_punctuation hend)
  · simp [Statement.code, write_of_find? hfind]

theorem goes_letStatement_element (bound : Nat) {name : String} {index value : Expression}
    (n : Labels)
    (hvalid : (Statement.letElement name index value).Valid context.environment)
    (h : a.Reads (Statement.letElement name index value).tokens b)
    (hindex : 2 * index.tokens.length + 2 ≤ bound)
    (hvalue : 2 * value.tokens.length + 2 ≤ bound) :
    Goes (letStatement context bound) a ()
      (((Statement.letElement name index value).code context.environment n).map .instruction)
      b := by
  obtain ⟨v, hfind⟩ := Option.isSome_iff_exists.mp hvalid.1
  obtain ⟨a₁, hlet, h⟩ := h.uncons
  obtain ⟨a₂, hname, h⟩ := h.uncons
  obtain ⟨a₆, hbrackets, h⟩ := reads_append.mp h
  obtain ⟨a₃, hopen, hbrackets⟩ := hbrackets.uncons
  obtain ⟨a₄, hindexread, hclose⟩ := reads_append.mp hbrackets
  obtain ⟨a₇, hequal, h⟩ := h.uncons
  obtain ⟨a₈, hvalueread, hend⟩ := reads_append.mp h
  have haddress := goes_expression index bound hvalid.2.1 hindexread
    (hclose.head ▸ TokenKind.endsExpression_rightBracket) hindex
  have hexp := goes_expression value bound hvalid.2.2 hvalueread
    (hend.head ▸ TokenKind.endsExpression_semicolon) hvalue
  apply Goes.congr
  · apply (goes_keyword hlet).step
    apply goes_line_bind
    apply (goes_expectName hname).step
    apply (goes_variableNamed hfind a₂).step
    apply (goes_accept hopen).step
    apply (goes_write _ a₃).bind
    apply haddress.bind
    apply (goes_punctuation hclose).step
    apply (goes_write _ a₆).bind
    apply (goes_punctuation hequal).step
    apply hexp.bind
    exact (goes_writeAll _ a₈).bind (goes_punctuation hend)
  · simp [Statement.code, read_of_find? hfind, Instruction.popScratch, Instruction.popTarget,
      Instruction.pushScratch, Instruction.popIndirect]

theorem goes_doStatement (bound : Nat) {c : Call} (n : Labels)
    (hvalid : c.Valid context.environment) (h : a.Reads (Statement.do_ c).tokens b)
    (hbound : 2 * c.tokens.length ≤ bound) :
    Goes (doStatement context bound) a ()
      (((Statement.do_ c).code context.environment n).map .instruction) b := by
  obtain ⟨receiver, member, es⟩ := c
  obtain ⟨name, ks, hks⟩ := Call.headTokens_cons receiver member
  simp only [Statement.tokens, Call.tokens, hks, List.cons_append] at h hbound
  simp only [enclosed, List.length_cons, List.length_append] at hbound
  obtain ⟨a₁, hdo, h⟩ := h.uncons
  obtain ⟨a₂, hname, h⟩ := h.uncons
  obtain ⟨a₃, hcall, hend⟩ := reads_append.mp h
  have hwalk := goes_call a₁.current.line hks hcall hvalid.2 fun hes hclose =>
    goes_arguments es bound hvalid.1 hes hclose (by have := hvalid.2; omega) (by omega)
  apply Goes.congr
  · apply (goes_keyword hdo).step
    apply goes_line_bind
    apply (goes_expectName hname).step
    apply hwalk.bind
    exact (goes_write _ a₃).bind (goes_punctuation hend)
  · simp [Statement.code, Instruction.popScratch]

theorem goes_returnStatement (bound : Nat) {value : Option Expression} (n : Labels)
    (hvalid : (Statement.return_ value).Valid context.environment)
    (h : a.Reads (Statement.return_ value).tokens b)
    (hbound : 2 * (Statement.return_ value).tokens.length ≤ bound) :
    Goes (returnStatement context bound) a ()
      (((Statement.return_ value).code context.environment n).map .instruction) b := by
  obtain ⟨a₁, hreturn, h⟩ : ∃ a₁, a.Reads [.keyword .return_] a₁ ∧
      a₁.Reads ((value.map Expression.tokens).getD [] ++ [.symbol .semicolon]) b := by
    cases value <;> exact h.uncons
  obtain ⟨a₂, hvalue, hend⟩ := reads_append.mp h
  refine (goes_keyword hreturn).step (goes_symbol?_bind ?_)
  cases value with
  | none =>
    rw [Option.map_none, Option.getD_none, reads_nil] at hvalue
    subst hvalue
    rw [if_pos (TokenKind.symbol?_eq_some.mpr hend.head)]
    exact (goes_write _ a₁).bind ((goes_punctuation hend).step (goes_write _ b))
  | some e =>
    simp only [Statement.tokens, List.length_cons, List.length_append] at hbound
    obtain ⟨k, ks, hks, hstart⟩ := e.tokens_cons
    have hfirst : ¬ a₁.current.kind.symbol? = some .semicolon := by
      rw [Option.map_some, Option.getD_some, hks] at hvalue
      rw [TokenKind.symbol?_eq_some, hvalue.head]
      intro hk
      simpa using hstart _ hk
    rw [if_neg hfirst]
    have hexp := goes_expression e bound hvalid hvalue
      (hend.head ▸ TokenKind.endsExpression_semicolon) (by omega)
    refine (hexp.bind ((goes_punctuation hend).step (goes_write _ b))).congr ?_
    simp [Statement.code]

section Block

variable {subroutine : Subroutine}

mutual

theorem goes_statement (hcontext : context.subroutine = some subroutine) :
    ∀ (t : Statement) (bound : Nat) (n : Labels) {a b : TokenStream},
    t.Valid context.environment → a.Reads t.tokens b → b.current.kind ≠ .keyword .else_ →
    2 * t.tokens.length ≤ bound →
    Goes (statement context (bound + 1) n) a (t.after n)
      ((t.code context.environment n).map .instruction) b
  | .let_ name value, bound, n, a, b, hvalid, h, _, hbound => by
    simp only [Statement.tokens, List.length_cons, List.length_append] at hbound
    have hwalk := goes_letStatement bound n hvalid h (by omega)
    refine goes_keyword?_bind ?_
    simp only [h.head, TokenKind.keyword?]
    exact (hwalk.bind (goes_pure n b)).congr (List.append_nil _)
  | .letElement name index value, bound, n, a, b, hvalid, h, _, hbound => by
    simp only [Statement.tokens, enclosed, List.length_cons, List.length_append] at hbound
    have hwalk := goes_letStatement_element bound n hvalid h (by omega) (by omega)
    refine goes_keyword?_bind ?_
    simp only [h.head, TokenKind.keyword?]
    exact (hwalk.bind (goes_pure n b)).congr (List.append_nil _)
  | .do_ c, bound, n, a, b, hvalid, h, _, hbound => by
    simp only [Statement.tokens, List.length_cons, List.length_append] at hbound
    have hwalk := goes_doStatement bound n hvalid h (by omega)
    refine goes_keyword?_bind ?_
    simp only [h.head, TokenKind.keyword?]
    exact (hwalk.bind (goes_pure n b)).congr (List.append_nil _)
  | .return_ value, bound, n, a, b, hvalid, h, _, hbound => by
    have hwalk := goes_returnStatement bound n hvalid h hbound
    have hk : a.current.kind = .keyword .return_ := by cases value <;> exact h.head
    refine goes_keyword?_bind ?_
    simp only [hk, TokenKind.keyword?]
    exact (hwalk.bind (goes_pure n b)).congr (List.append_nil _)
  | .if_ condition yes, bound, n, a, b, hvalid, h, hb, hbound => by
    simp only [Statement.tokens, enclosed, List.length_cons, List.length_append] at hbound
    obtain ⟨m, rfl⟩ := Nat.exists_eq_add_one.mpr (by omega : 0 < bound)
    obtain ⟨a₁, hif, h⟩ := h.uncons
    obtain ⟨a₂, hcondition, hyes⟩ := reads_append.mp h
    refine goes_keyword?_bind ?_
    simp only [hif.head, TokenKind.keyword?]
    apply Goes.congr
    · apply (goes_keyword hif).step
      apply (goes_scope hcontext a₁).step
      apply (goes_label hcontext _ _ a₁).step
      apply (goes_label hcontext _ _ a₁).step
      apply (goes_condition m _ hvalid.1 hcondition (by omega)).bind
      apply (goes_between hyes fun hin hclose =>
        goes_statements hcontext yes m _ hvalid.2 hin hclose (by omega)).bind
      apply (goes_accept_ne hb).step
      exact (goes_write _ b).bind (goes_pure _ b)
    · simp [Statement.code, Mark.text]
  | .ifElse condition yes no, bound, n, a, b, hvalid, h, _, hbound => by
    simp only [Statement.tokens, enclosed, List.length_cons, List.length_append] at hbound
    obtain ⟨m, rfl⟩ := Nat.exists_eq_add_one.mpr (by omega : 0 < bound)
    obtain ⟨a₁, hif, h⟩ := h.uncons
    obtain ⟨a₂, hcondition, h⟩ := reads_append.mp h
    obtain ⟨a₃, hyes, h⟩ := reads_append.mp h
    obtain ⟨a₄, helse, hno⟩ := h.uncons
    refine goes_keyword?_bind ?_
    simp only [hif.head, TokenKind.keyword?]
    apply Goes.congr
    · apply (goes_keyword hif).step
      apply (goes_scope hcontext a₁).step
      apply (goes_label hcontext _ _ a₁).step
      apply (goes_label hcontext _ _ a₁).step
      apply (goes_condition m _ hvalid.1 hcondition (by omega)).bind
      apply (goes_between hyes fun hin hclose =>
        goes_statements hcontext yes m _ hvalid.2.1 hin hclose (by omega)).bind
      apply (goes_accept helse).step
      apply (goes_writeAll _ a₄).bind
      apply (goes_between hno fun hin hclose =>
        goes_statements hcontext no m _ hvalid.2.2 hin hclose (by omega)).bind
      exact (goes_write _ b).bind (goes_pure _ b)
    · simp [Statement.code, Mark.text]
  | .while_ condition body, bound, n, a, b, hvalid, h, _, hbound => by
    simp only [Statement.tokens, enclosed, List.length_cons, List.length_append] at hbound
    obtain ⟨m, rfl⟩ := Nat.exists_eq_add_one.mpr (by omega : 0 < bound)
    obtain ⟨a₁, hwhile, h⟩ := h.uncons
    obtain ⟨a₂, hcondition, hbody⟩ := reads_append.mp h
    refine goes_keyword?_bind ?_
    simp only [hwhile.head, TokenKind.keyword?]
    apply Goes.congr
    · apply (goes_keyword hwhile).step
      apply (goes_scope hcontext a₁).step
      apply (goes_label hcontext _ _ a₁).step
      apply (goes_label hcontext _ _ a₁).step
      apply (goes_write _ a₁).bind
      apply (goes_condition m _ hvalid.1 hcondition (by omega)).bind
      apply (goes_between hbody fun hin hclose =>
        goes_statements hcontext body m _ hvalid.2 hin hclose (by omega)).bind
      exact (goes_writeAll _ b).bind (goes_pure _ b)
    · simp [Statement.code, Mark.text]

theorem goes_statements (hcontext : context.subroutine = some subroutine) :
    ∀ (ts : List Statement) (bound : Nat) (n : Labels) {a b : TokenStream},
    Statement.BlockValid context.environment ts → a.Reads (Statement.blockTokens ts) b →
    b.current.kind = .symbol .rightBrace → 2 * (Statement.blockTokens ts).length + 2 ≤ bound →
    Goes (statements context bound n) a (Statement.blockAfter ts n)
      ((Statement.blockCode context.environment ts n).map .instruction) b
  | [], bound, n, a, b, _, h, hb, hbound => by
    obtain ⟨m, rfl⟩ := Nat.exists_eq_add_one.mpr (by omega : 0 < bound)
    rw [Statement.blockTokens, reads_nil] at h
    subst h
    have hend : Goes atBlockEnd a true [] a := by
      refine goes_current_bind ?_
      simp only [hb]
      exact goes_pure true a
    exact hend.step (goes_pure n a)
  | t :: ts, bound, n, a, b, hvalid, h, hb, hbound => by
    obtain ⟨k, ks, hks, -⟩ := t.tokens_cons
    have hpos : 0 < t.tokens.length := by rw [hks]; exact Nat.succ_pos _
    rw [Statement.blockTokens, List.length_append] at hbound
    obtain ⟨m, rfl⟩ : ∃ m, bound = m + 2 := ⟨bound - 2, by omega⟩
    have hend : Goes atBlockEnd a false [] a := by
      refine goes_current_bind ?_
      rw [Statement.blockTokens, hks] at h
      simp only [h.head]
      exact goes_pure false a
    obtain ⟨a₁, ht, hts⟩ := reads_append.mp h
    have hnext : a₁.current.kind ≠ .keyword .else_ :=
      (followsStatement_of_reads hts hb).ne_keyword (by simp [Keyword.StartsStatement])
    have hfirst := goes_statement hcontext t m n hvalid.1 ht hnext (by omega)
    have hrest := goes_statements hcontext ts (m + 1) (t.after n) hvalid.2 hts hb (by omega)
    refine (hend.step (hfirst.bind hrest)).congr ?_
    rw [Statement.blockCode, List.map_append]

end

end Block

/-! ## Variables -/

variable {options : Options} {ds : List Declaration}

theorem goes_typeName (t : TypeName) (h : a.Reads [t.token] b) : Goes typeName a t.text [] b := by
  refine goes_current_bind ?_
  have hk := h.head
  cases t with
  | int =>
    simp only [TypeName.token] at hk
    simp only [hk]
    exact (goes_next h).step (goes_pure "int" b)
  | char =>
    simp only [TypeName.token] at hk
    simp only [hk]
    exact (goes_next h).step (goes_pure "char" b)
  | boolean =>
    simp only [TypeName.token] at hk
    simp only [hk]
    exact (goes_next h).step (goes_pure "boolean" b)
  | named name =>
    simp only [TypeName.token] at hk
    simp only [hk]
    exact goes_expectName h

theorem goes_declaredName (type : String) (kind : VariableKind) {name : String}
    (hds : context.table? kind = some (tableOf ds))
    (hnew : options.Allows (ds ++ [⟨name, type, kind⟩])) (h : a.Reads [.identifier name] b) :
    Goes (declaredName options type kind context) a
      (context.setTable kind (tableOf (ds ++ [⟨name, type, kind⟩]))) [] b := by
  refine goes_line_bind ((goes_expectName h).step ?_)
  have hfree : ¬ (options.strict && (tableOf ds).contains name) = true := by
    rw [Bool.and_eq_true, contains_tableOf]
    rintro ⟨hstrict, hmem⟩
    exact (Declaration.distinct_concat.mp (hnew hstrict)).2 hmem
  unfold declare
  simp only [hds]
  rw [if_neg hfree, tableOf_concat]
  exact (goes_note _ b).step (goes_pure _ b)

theorem goes_declaredNames (type : String) (kind : VariableKind) (more : List String) :
    ∀ (first : String) (bound : Nat) {ds : List Declaration} {context : Context}
      {a b : TokenStream}, context.table? kind = some (tableOf ds) →
      options.Allows (ds ++ (first :: more).map fun name => ⟨name, type, kind⟩) →
      a.Reads (.identifier first ::
        more.flatMap (fun name => [.symbol .comma, .identifier name])) b →
      b.current.kind ≠ .symbol .comma → more.length + 1 ≤ bound →
      Goes (declaredNames options type kind bound context) a (context.setTable kind
        (tableOf (ds ++ (first :: more).map fun name => ⟨name, type, kind⟩))) [] b := by
  induction more with
  | nil =>
    intro first bound ds context a b hds hnew h hb hbound
    obtain ⟨m, rfl⟩ := Nat.exists_eq_add_one.mpr (by omega : 0 < bound)
    exact (goes_declaredName type kind hds hnew h).step
      ((goes_accept_ne hb).step (goes_pure _ b))
  | cons second more ih =>
    intro first bound ds context a b hds hnew h hb hbound
    rw [List.length_cons] at hbound
    obtain ⟨m, rfl⟩ := Nat.exists_eq_add_one.mpr (by omega : 0 < bound)
    have hsplit : ds ++ (first :: second :: more).map (fun name => ⟨name, type, kind⟩) =
        ds ++ [⟨first, type, kind⟩] ++ (second :: more).map fun name => ⟨name, type, kind⟩ := by
      simp
    rw [hsplit] at hnew ⊢
    obtain ⟨a₁, hfirst, h⟩ := h.uncons
    obtain ⟨a₂, hcomma, h⟩ := h.uncons
    have hrest := ih second m (Context.table?_setTable hds _) hnew h hb (by omega)
    rw [Context.setTable_setTable] at hrest
    exact (goes_declaredName type kind hds hnew.of_append hfirst).step
      ((goes_accept hcomma).step hrest)

theorem goes_declaration (kind : VariableKind) (d : VariableDec) (bound : Nat)
    (hds : context.table? kind = some (tableOf ds))
    (hnew : options.Allows (ds ++ d.declarations kind)) (h : a.Reads d.tokens b)
    (hbound : d.tokens.length ≤ bound) :
    Goes (declaration options kind bound context) a
      (context.setTable kind (tableOf (ds ++ d.declarations kind))) [] b := by
  have hlength : d.more.length + 1 ≤ d.tokens.length := by
    simp [VariableDec.tokens, List.length_flatMap]
    omega
  obtain ⟨a₁, htype, h⟩ := h.uncons
  obtain ⟨a₂, hnames, hend⟩ := reads_append.mp
    (show a₁.Reads ((.identifier d.first :: d.more.flatMap
      fun name => [.symbol .comma, .identifier name]) ++ [.symbol .semicolon]) b from h)
  have hafter : a₂.current.kind ≠ .symbol .comma := by
    rw [hend.head]
    simp
  refine (goes_typeName d.type htype).step ?_
  refine (goes_declaredNames d.type.text kind d.more d.first bound hds hnew hnames hafter
    (by omega)).step ?_
  exact (goes_punctuation hend).step (goes_pure _ b)

theorem goes_classVariables (vs : List ClassVariableDec) :
    ∀ (bound : Nat) {ds : List Declaration} {context : Context} {a b : TokenStream},
      context.classTable = tableOf ds →
      options.Allows (ds ++ vs.flatMap fun d => d.vars.declarations d.storage.kind) →
      a.Reads (vs.flatMap ClassVariableDec.tokens) b →
      b.current.kind.keyword?.bind classVariable? = none →
      (vs.flatMap ClassVariableDec.tokens).length + 1 ≤ bound →
      Goes (classVariables options bound context) a { context with
        classTable := tableOf (ds ++ vs.flatMap fun d => d.vars.declarations d.storage.kind) }
        [] b := by
  induction vs with
  | nil =>
    intro bound ds context a b hds _ h hb hbound
    obtain ⟨m, rfl⟩ := Nat.exists_eq_add_one.mpr (by omega : 0 < bound)
    rw [List.flatMap_nil, reads_nil] at h
    subst h
    rw [List.flatMap_nil, List.append_nil, ← hds]
    refine goes_keyword?_bind ?_
    simp only [hb]
    exact goes_pure _ a
  | cons d vs ih =>
    intro bound ds context a b hds hnew h hb hbound
    obtain ⟨m, rfl⟩ := Nat.exists_eq_add_one.mpr (by omega : 0 < bound)
    rw [List.flatMap_cons, ← List.append_assoc] at hnew ⊢
    simp only [List.flatMap_cons, ClassVariableDec.tokens, List.cons_append, List.length_cons,
      List.length_append] at h hbound
    obtain ⟨a₁, hword, h⟩ := h.uncons
    obtain ⟨a₂, hd, hvs⟩ := reads_append.mp h
    have htable : context.table? d.storage.kind = some (tableOf ds) := by
      rw [← hds]
      cases d.storage <;> rfl
    have hdec := goes_declaration d.storage.kind d.vars m htable hnew.of_append hd (by omega)
    rw [ClassStorage.setTable_kind] at hdec
    refine goes_keyword?_bind ?_
    simp only [hword.head, TokenKind.keyword?, Option.bind_some, classVariable?_keyword]
    exact (goes_next hword).step (hdec.step (ih m rfl hnew hvs hb (by omega)))

theorem goes_localVariables (vs : List VariableDec) :
    ∀ (bound : Nat) {ds : List Declaration} {context : Context} {a b : TokenStream},
      context.table? .local_ = some (tableOf ds) →
      options.Allows (ds ++ vs.flatMap (VariableDec.declarations .local_)) →
      a.Reads (SubroutineDec.localTokens vs) b → b.current.kind ≠ .keyword .var →
      (SubroutineDec.localTokens vs).length + 1 ≤ bound →
      Goes (localVariables options bound context) a (context.setTable .local_
        (tableOf (ds ++ vs.flatMap (VariableDec.declarations .local_)))) [] b := by
  induction vs with
  | nil =>
    intro bound ds context a b hds _ h hb hbound
    obtain ⟨m, rfl⟩ := Nat.exists_eq_add_one.mpr (by omega : 0 < bound)
    rw [SubroutineDec.localTokens, List.flatMap_nil, reads_nil] at h
    subst h
    rw [List.flatMap_nil, List.append_nil, Context.setTable_of_table? hds]
    exact (goes_accept_ne hb).step (goes_pure _ a)
  | cons d vs ih =>
    intro bound ds context a b hds hnew h hb hbound
    obtain ⟨m, rfl⟩ := Nat.exists_eq_add_one.mpr (by omega : 0 < bound)
    rw [List.flatMap_cons, ← List.append_assoc] at hnew ⊢
    simp only [SubroutineDec.localTokens, List.flatMap_cons, List.cons_append, List.length_cons,
      List.length_append] at h hbound
    obtain ⟨a₁, hword, h⟩ := h.uncons
    obtain ⟨a₂, hd, hvs⟩ := reads_append.mp h
    have hrest := ih m (Context.table?_setTable hds _) hnew hvs hb
      (by rw [SubroutineDec.localTokens]; omega)
    rw [Context.setTable_setTable] at hrest
    exact (goes_accept hword).step
      ((goes_declaration .local_ d m hds hnew.of_append hd (by omega)).step hrest)

theorem goes_parameters (more : List Parameter) :
    ∀ (p : Parameter) (bound : Nat) {ds : List Declaration} {context : Context}
      {a b : TokenStream}, context.table? .argument = some (tableOf ds) →
      options.Allows (ds ++ (p :: more).map fun q => ⟨q.name, q.type.text, .argument⟩) →
      a.Reads (Parameter.listTokens (p :: more)) b → b.current.kind ≠ .symbol .comma →
      more.length + 1 ≤ bound →
      Goes (parameters options bound context) a (context.setTable .argument
        (tableOf (ds ++ (p :: more).map fun q => ⟨q.name, q.type.text, .argument⟩))) [] b := by
  induction more with
  | nil =>
    intro p bound ds context a b hds hnew h hb hbound
    obtain ⟨m, rfl⟩ := Nat.exists_eq_add_one.mpr (by omega : 0 < bound)
    obtain ⟨a₁, htype, hname⟩ := h.uncons
    exact (goes_typeName p.type htype).step ((goes_declaredName _ _ hds hnew hname).step
      ((goes_accept_ne hb).step (goes_pure _ b)))
  | cons q more ih =>
    intro p bound ds context a b hds hnew h hb hbound
    rw [List.length_cons] at hbound
    obtain ⟨m, rfl⟩ := Nat.exists_eq_add_one.mpr (by omega : 0 < bound)
    have hsplit : ds ++ (p :: q :: more).map (fun r => ⟨r.name, r.type.text, .argument⟩) =
        ds ++ [⟨p.name, p.type.text, .argument⟩] ++
          (q :: more).map fun r => ⟨r.name, r.type.text, .argument⟩ := by
      simp
    rw [hsplit] at hnew ⊢
    obtain ⟨a₁, htype, h⟩ := h.uncons
    obtain ⟨a₂, hname, h⟩ := h.uncons
    obtain ⟨a₃, hcomma, h⟩ := h.uncons
    have hrest := ih q m (Context.table?_setTable hds _) hnew h hb (by omega)
    rw [Context.setTable_setTable] at hrest
    exact (goes_typeName p.type htype).step
      ((goes_declaredName _ _ hds hnew.of_append hname).step ((goes_accept hcomma).step hrest))

theorem goes_parameterList (ps : List Parameter) (bound : Nat)
    (hds : context.table? .argument = some (tableOf ds))
    (hnew : options.Allows (ds ++ ps.map fun p => ⟨p.name, p.type.text, .argument⟩))
    (h : a.Reads (Parameter.listTokens ps) b) (hb : b.current.kind = .symbol .rightParen)
    (hbound : (Parameter.listTokens ps).length ≤ bound) :
    Goes (parameterList options bound context) a (context.setTable .argument
      (tableOf (ds ++ ps.map fun p => ⟨p.name, p.type.text, .argument⟩))) [] b := by
  refine goes_symbol?_bind ?_
  cases ps with
  | nil =>
    rw [Parameter.listTokens, reads_nil] at h
    subst h
    rw [if_pos (TokenKind.symbol?_eq_some.mpr hb), List.map_nil, List.append_nil,
      Context.setTable_of_table? hds]
    exact goes_pure _ a
  | cons p more =>
    have hfirst : ¬ a.current.kind.symbol? = some .rightParen := by
      rw [TokenKind.symbol?_eq_some, h.head]
      cases p.type <;> simp [TypeName.token]
    have hlength : more.length + 1 ≤ (Parameter.listTokens (p :: more)).length := by
      simp [Parameter.listTokens, Parameter.tokens, List.length_flatMap]
      omega
    rw [if_neg hfirst]
    exact goes_parameters more p bound hds hnew h (by rw [hb]; simp) (by omega)

/-! ## Classes -/

theorem goes_enter (className name : String) (kind : SubroutineKind) (a : TokenStream) :
    Goes (enter className name kind) a (Subroutine.enter className name kind) [] a := by
  have hrest : Goes (note (.compilingSubroutine kind (Subroutine.enter className name kind).name)
      >>= fun _ => pure (Subroutine.enter className name kind)) a
      (Subroutine.enter className name kind) [] a := (goes_note _ a).step (goes_pure _ a)
  unfold enter
  by_cases hmethod : kind = .method
  · rw [if_pos hmethod]
    exact (goes_note _ a).step hrest
  · rw [if_neg hmethod]
    exact hrest

theorem goes_showTable (title : String) (table : Table) (a : TokenStream) :
    Goes (showTable options title table) a ()
      (if options.annotate then tableListing title table else []) a := by
  unfold showTable
  by_cases hannotate : options.annotate = true
  · rw [if_pos hannotate, if_pos hannotate]
    exact goes_writeLines _ a
  · rw [if_neg hannotate, if_neg hannotate]
    exact goes_pure () a

theorem goes_body (c : ClassDec) (d : SubroutineDec) (bound : Nat) (hvalid : d.Valid c)
    (h : a.Reads (Statement.blockTokens d.body) b) (hb : b.current.kind = .symbol .rightBrace)
    (hbound : 2 * (Statement.blockTokens d.body).length + 2 ≤ bound) :
    Goes (body options (d.context c) bound) a () (d.lines options.annotate c) b := by
  have hentered := SubroutineDec.subroutine_context c d
  have hcount : (d.entered c).table.count .local_ = wrap16 d.localVariables.length := by
    rw [← d.countP_local_scope c.name, ← count_tableOf]
    rfl
  have hvalid : Statement.BlockValid (d.context c).environment d.body := by
    rw [environment_context]
    exact hvalid
  have hstatements := goes_statements hentered d.body bound {} hvalid h hb hbound
  rw [environment_context] at hstatements
  have hentry : Goes (writeAll (prologue d.kind ((tableOf c.declarations).count .field))) a ()
      ((d.entry c).map .instruction) a := prologue_eq c d ▸ goes_writeAll _ a
  refine Goes.congr ((goes_scope hentered a).step ((goes_write _ a).bind
    ((goes_showTable _ _ a).bind (hentry.bind (hstatements.bind (goes_pure () b)))))) ?_
  rw [hcount, List.append_nil, ← List.map_append]
  rfl

theorem goes_subroutine (c : ClassDec) (d : SubroutineDec) (bound : Nat) {ks : List TokenKind}
    (hks : d.tokens = .keyword d.kind.keyword :: ks) (hd : d.Admitted options c)
    (h : a.Reads ks b) (hbound : 2 * ks.length ≤ bound) :
    Goes (subroutine options c.context bound d.kind) a ()
      (d.lines options.annotate c) b := by
  obtain ⟨hvalid, hallows⟩ := hd
  unfold SubroutineDec.scope SubroutineDec.declarations at hallows
  rw [← List.append_assoc] at hallows
  obtain rfl := (List.cons.inj hks).2
  simp only [enclosed, List.length_cons, List.length_append] at hbound
  obtain ⟨a₁, hresult, h⟩ := h.uncons
  obtain ⟨a₂, hname, h⟩ := h.uncons
  obtain ⟨a₃, hparameters, hbody⟩ := reads_append.mp h
  have hrest : Goes (expectName >>= fun name => enter c.name name d.kind >>= fun entered =>
      parenthesized (parameterList options bound (c.context.inside entered)) >>= fun context =>
      braced (localVariables options bound context >>= fun context =>
        body options context bound)) a₁ () (d.lines options.annotate c) b := by
    refine (goes_expectName hname).step ((goes_enter c.name d.name d.kind a₂).step ?_)
    refine (goes_between hparameters fun hin hclose => goes_parameterList d.parameters bound
      (SubroutineDec.table?_inside c d) hallows.of_append hin hclose (by omega)).step ?_
    refine goes_between hbody fun hin hclose => ?_
    obtain ⟨a₄, hlocals, hstatements⟩ := reads_append.mp hin
    have hnext : a₄.current.kind ≠ .keyword .var :=
      (followsStatement_of_reads hstatements hclose).ne_keyword (by simp [Keyword.StartsStatement])
    refine (goes_localVariables d.locals bound rfl hallows hlocals hnext (by omega)).step ?_
    rw [List.append_assoc]
    exact goes_body c d bound hvalid hstatements hclose (by omega)
  unfold subroutine
  unfold SubroutineDec.resultToken at hresult
  cases hd : d.result with
  | none =>
    rw [hd] at hresult
    exact (goes_accept hresult).step hrest
  | some t =>
    rw [hd] at hresult
    have hvoid : a.current.kind ≠ .keyword .void := by
      rw [hresult.head]
      cases t <;> simp [TypeName.token]
    exact (goes_accept_ne hvoid).step ((goes_typeName t hresult).step hrest)

theorem goes_subroutines (c : ClassDec) (ds : List SubroutineDec) :
    ∀ (bound : Nat) {a b : TokenStream}, (∀ d ∈ ds, d.Admitted options c) →
      a.Reads (ds.flatMap SubroutineDec.tokens) b → b.current.kind = .symbol .rightBrace →
      2 * (ds.flatMap SubroutineDec.tokens).length + 1 ≤ bound →
      Goes (subroutines options c.context bound) a ()
        (ds.flatMap (SubroutineDec.lines options.annotate c)) b := by
  induction ds with
  | nil =>
    intro bound a b _ h hb hbound
    obtain ⟨m, rfl⟩ := Nat.exists_eq_add_one.mpr (by omega : 0 < bound)
    rw [List.flatMap_nil, reads_nil] at h
    subst h
    refine goes_keyword?_bind ?_
    simp only [hb, TokenKind.keyword?, Option.bind_none]
    exact goes_pure () a
  | cons d ds ih =>
    intro bound a b hall h hb hbound
    obtain ⟨m, rfl⟩ := Nat.exists_eq_add_one.mpr (by omega : 0 < bound)
    obtain ⟨ks, hks⟩ : ∃ ks, d.tokens = .keyword d.kind.keyword :: ks := ⟨_, rfl⟩
    rw [List.flatMap_cons, List.length_append, hks, List.length_cons] at hbound
    rw [List.flatMap_cons, hks, List.cons_append] at h
    obtain ⟨a₁, hword, h⟩ := h.uncons
    obtain ⟨a₂, hd, hds⟩ := reads_append.mp h
    refine goes_keyword?_bind ?_
    simp only [hword.head, TokenKind.keyword?, Option.bind_some, subroutineKind?_keyword]
    refine (goes_next hword).step ?_
    rw [List.flatMap_cons]
    refine (goes_subroutine c d m hks (hall d (List.mem_cons_self ..)) hd (by omega)).bind ?_
    exact ih m (fun d' hd' => hall d' (List.mem_cons_of_mem _ hd')) hds hb (by omega)

/-- What follows the variables of a class declares no further one. -/
theorem classVariable?_of_reads_subroutines {ds : List SubroutineDec}
    (h : a.Reads (ds.flatMap SubroutineDec.tokens) b) (hb : b.current.kind = .symbol .rightBrace) :
    a.current.kind.keyword?.bind classVariable? = none := by
  cases ds with
  | nil =>
    rw [List.flatMap_nil, reads_nil] at h
    rw [h, hb]
    rfl
  | cons d ds =>
    rw [List.flatMap_cons, SubroutineDec.tokens, List.cons_append] at h
    rw [h.head]
    cases d.kind <;> rfl

theorem goes_classDeclaration (c : ClassDec) (bound : Nat) (hc : c.Admitted options)
    (h : a.Reads c.tokens b) (hbound : 2 * c.tokens.length ≤ bound) :
    Goes (classDeclaration options bound) a () (c.lines options.annotate) b := by
  obtain ⟨hall, hallows⟩ := hc
  simp only [ClassDec.tokens, enclosed, List.length_cons, List.length_append] at hbound
  obtain ⟨a₁, hclass, h⟩ := h.uncons
  obtain ⟨a₂, hname, h⟩ := h.uncons
  refine (goes_keyword hclass).step ((goes_expectName hname).step ((goes_note _ a₂).step ?_))
  refine goes_between h fun hin hclose => ?_
  obtain ⟨a₃, hvariables, hsubroutines⟩ := reads_append.mp hin
  have hnext := classVariable?_of_reads_subroutines hsubroutines hclose
  have hcontext : Goes (classVariables options bound { className := c.name }) _ c.context [] a₃ :=
    goes_classVariables c.vars bound tableOf_nil.symm
      (show options.Allows ([] ++ c.declarations) from hallows) hvariables hnext (by omega)
  exact hcontext.step ((goes_showTable _ _ a₃).bind
    (goes_subroutines c c.subroutines bound hall hsubroutines hclose (by omega)))

/-- **Classes.** On the tokens of a class that meets the conditions, up to the end of the input, a
pass over a whole unit succeeds and writes the lines of that class. -/
theorem goes_compilationUnit (c : ClassDec) (bound : Nat) (hc : c.Admitted options)
    (h : a.Reads c.tokens b) (hb : b.current.kind = .eof) (hbound : 2 * c.tokens.length ≤ bound) :
    Goes (compilationUnit options bound) a () (c.lines options.annotate) b := by
  have hfinish : Goes finish b () [] b := by
    refine goes_current_bind ?_
    rw [if_pos hb]
    exact goes_emit .finish b
  exact ((goes_classDeclaration c bound hc h hbound).bind hfinish).congr (List.append_nil _)

end Pass

end Jack
