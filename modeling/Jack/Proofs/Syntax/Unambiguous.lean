import Jack.Proofs.Syntax.Tree

/-!
# A token sequence has one tree

Two trees with the same tokens are the same tree. Every step compares trees that are followed by
further tokens, where the first of these cannot belong to the tree:

1. the first two tokens tell the shape of a term (`shapeOf_tokens`);
2. expressions, by recursion on one of the two trees (`Expression.tokens_injective`);
3. statements, where the token after a block tells whether there is an alternative;
4. declarations (`ClassDec.tokens_injective`).
-/

namespace Jack

/-- The tokens do not go on with a term that stands before them. -/
def TermEnd (r : List TokenKind) : Prop := ∀ k ∈ r.head?, k.EndsTerm

/-- The tokens do not go on with an expression that stands before them. -/
def ExpressionEnd (r : List TokenKind) : Prop := ∀ k ∈ r.head?, k.EndsExpression

variable {r r' : List TokenKind}

theorem expressionEnd_cons {k : TokenKind} (h : k.EndsExpression) : ExpressionEnd (k :: r) := by
  intro k' hk'
  obtain rfl : k = k' := by simpa using hk'
  exact h

theorem expressionEnd_nil : ExpressionEnd [] := by
  intro k hk
  simp at hk

/-! ## Expressions -/

/-- The forms of a term. -/
inductive Shape where
  | integer | string | word | var | element | call | parenthesized | unary

/-- The form of a term. -/
def Term.shape : Term → Shape
  | .integer _ _ => .integer
  | .string _ => .string
  | .word _ => .word
  | .var _ => .var
  | .element _ _ => .element
  | .call _ => .call
  | .parenthesized _ => .parenthesized
  | .unary _ _ => .unary

/-- The form of the term that starts with the given tokens. -/
def shapeOf : List TokenKind → Shape
  | .integer _ _ :: _ => .integer
  | .string _ :: _ => .string
  | .keyword _ :: _ => .word
  | .identifier _ :: .symbol .leftBracket :: _ => .element
  | .identifier _ :: .symbol .leftParen :: _ => .call
  | .identifier _ :: .symbol .dot :: _ => .call
  | .symbol .leftParen :: _ => .parenthesized
  | .symbol _ :: _ => .unary
  | _ => .var

/-- **Shapes.** Two tokens tell the form of a term. -/
theorem shapeOf_tokens (t : Term) (hr : TermEnd r) : shapeOf (t.tokens ++ r) = t.shape := by
  cases t with
  | var name =>
    cases r with
    | nil => rfl
    | cons k ks =>
      obtain ⟨hbracket, hparen, hdot⟩ := hr k rfl
      rw [Term.tokens, List.singleton_append]
      unfold shapeOf
      split <;> simp_all [Term.shape]
  | call c =>
    obtain ⟨receiver, name, arguments⟩ := c
    cases receiver <;> rfl
  | unary op operand => cases op <;> rfl
  | _ => rfl

theorem Term.shape_eq {t t' : Term} (hr : TermEnd r) (hr' : TermEnd r')
    (h : t.tokens ++ r = t'.tokens ++ r') : t.shape = t'.shape := by
  rw [← shapeOf_tokens t hr, ← shapeOf_tokens t' hr', h]

theorem BinaryOperator.symbol_injective {a b : BinaryOperator} (h : a.symbol = b.symbol) :
    a = b := by
  cases a <;> cases b <;> simp_all [symbol]

theorem UnaryOperator.symbol_injective {a b : UnaryOperator} (h : a.symbol = b.symbol) : a = b := by
  cases a <;> cases b <;> simp_all [symbol]

theorem ValueWord.keyword_injective {a b : ValueWord} (h : a.keyword = b.keyword) : a = b := by
  cases a <;> cases b <;> simp_all [keyword]

/-- What follows a term in an expression ends the term. -/
theorem termEnd_rest (rest : List (BinaryOperator × Term)) (hr : ExpressionEnd r) :
    TermEnd (Expression.restTokens rest ++ r) := by
  cases rest with
  | nil => exact fun k hk => (hr k hk).1
  | cons p rest =>
    intro k hk
    obtain rfl : .symbol p.1.symbol = k := by simpa [Expression.restTokens] using hk
    exact TokenKind.endsTerm_operator p.1

/-- What follows an argument ends it. -/
theorem expressionEnd_more (more : List Expression) :
    ExpressionEnd (Call.moreTokens more ++ .symbol .rightParen :: r) := by
  cases more with
  | nil => exact expressionEnd_cons TokenKind.endsExpression_rightParen
  | cons e more => exact expressionEnd_cons TokenKind.endsExpression_comma

/-- No expression starts with the parenthesis that closes an argument list. -/
theorem Expression.tokens_append_ne (e : Expression) {y : Symbol}
    (hy : y ≠ .leftParen ∧ y ≠ .minus ∧ y ≠ .tilde) : e.tokens ++ r ≠ .symbol y :: r' := by
  obtain ⟨k, ks, hks, hstart⟩ := e.tokens_cons
  intro h
  rw [hks, List.cons_append, List.cons.injEq] at h
  obtain h | h | h := hstart y h.1
  · exact hy.1 h
  · exact hy.2.1 h
  · exact hy.2.2 h

mutual

theorem Term.tokens_append_inj : ∀ (t t' : Term) {r r' : List TokenKind}, TermEnd r → TermEnd r' →
    t.tokens ++ r = t'.tokens ++ r' → t = t' ∧ r = r'
  | .integer value digits, t', r, r', hr, hr', h => by
    have hshape := Term.shape_eq hr hr' h
    cases t' with
    | integer value' digits' => simp_all [Term.tokens]
    | _ => simp [Term.shape] at hshape
  | .string characters, t', r, r', hr, hr', h => by
    have hshape := Term.shape_eq hr hr' h
    cases t' with
    | string characters' => simp_all [Term.tokens]
    | _ => simp [Term.shape] at hshape
  | .word w, t', r, r', hr, hr', h => by
    have hshape := Term.shape_eq hr hr' h
    cases t' with
    | word w' =>
      simp only [Term.tokens, List.singleton_append, List.cons.injEq, TokenKind.keyword.injEq] at h
      exact ⟨by rw [ValueWord.keyword_injective h.1], h.2⟩
    | _ => simp [Term.shape] at hshape
  | .var name, t', r, r', hr, hr', h => by
    have hshape := Term.shape_eq hr hr' h
    cases t' with
    | var name' => simp_all [Term.tokens]
    | _ => simp [Term.shape] at hshape
  | .element name index, t', r, r', hr, hr', h => by
    have hshape := Term.shape_eq hr hr' h
    cases t' with
    | element name' index' =>
      simp only [Term.tokens, enclosed, List.cons_append, List.append_assoc, List.nil_append,
        List.cons.injEq, TokenKind.identifier.injEq, true_and] at h
      obtain ⟨hname, h⟩ := h
      have hbracket {ks : List TokenKind} : ExpressionEnd (.symbol .rightBracket :: ks) :=
        expressionEnd_cons TokenKind.endsExpression_rightBracket
      obtain ⟨hindex, h⟩ := Expression.tokens_append_inj index index' hbracket hbracket h
      exact ⟨by rw [hname, hindex], (List.cons.inj h).2⟩
    | _ => simp [Term.shape] at hshape
  | .call c, t', r, r', hr, hr', h => by
    have hshape := Term.shape_eq hr hr' h
    cases t' with
    | call c' =>
      obtain ⟨hc, h⟩ := Call.tokens_append_inj c c' h
      exact ⟨by rw [hc], h⟩
    | _ => simp [Term.shape] at hshape
  | .parenthesized inner, t', r, r', hr, hr', h => by
    have hshape := Term.shape_eq hr hr' h
    cases t' with
    | parenthesized inner' =>
      simp only [Term.tokens, enclosed, List.cons_append, List.append_assoc, List.nil_append,
        List.cons.injEq, true_and] at h
      have hparen {ks : List TokenKind} : ExpressionEnd (.symbol .rightParen :: ks) :=
        expressionEnd_cons TokenKind.endsExpression_rightParen
      obtain ⟨hinner, h⟩ := Expression.tokens_append_inj inner inner' hparen hparen h
      exact ⟨by rw [hinner], (List.cons.inj h).2⟩
    | _ => simp [Term.shape] at hshape
  | .unary op operand, t', r, r', hr, hr', h => by
    have hshape := Term.shape_eq hr hr' h
    cases t' with
    | unary op' operand' =>
      simp only [Term.tokens, List.cons_append, List.cons.injEq, TokenKind.symbol.injEq] at h
      obtain ⟨hop, h⟩ := h
      obtain ⟨hoperand, h⟩ := Term.tokens_append_inj operand operand' hr hr' h
      exact ⟨by rw [UnaryOperator.symbol_injective hop, hoperand], h⟩
    | _ => simp [Term.shape] at hshape

theorem Expression.tokens_append_inj : ∀ (e e' : Expression) {r r' : List TokenKind},
    ExpressionEnd r → ExpressionEnd r' → e.tokens ++ r = e'.tokens ++ r' → e = e' ∧ r = r'
  | .mk first rest, .mk first' rest', r, r', hr, hr', h => by
    simp only [Expression.tokens, List.append_assoc] at h
    obtain ⟨hfirst, h⟩ := Term.tokens_append_inj first first' (termEnd_rest rest hr)
      (termEnd_rest rest' hr') h
    obtain ⟨hrest, h⟩ := Expression.restTokens_append_inj rest rest' hr hr' h
    exact ⟨by rw [hfirst, hrest], h⟩

theorem Expression.restTokens_append_inj : ∀ (rest rest' : List (BinaryOperator × Term))
    {r r' : List TokenKind}, ExpressionEnd r → ExpressionEnd r' →
    Expression.restTokens rest ++ r = Expression.restTokens rest' ++ r' → rest = rest' ∧ r = r'
  | [], [], r, r', _, _, h => ⟨rfl, h⟩
  | [], (op', _) :: _, r, r', hr, _, h => by
    have hop := (hr (.symbol op'.symbol) (by rw [← List.nil_append r]; exact h ▸ rfl)).2 op'
    exact absurd rfl hop
  | (op, _) :: _, [], r, r', _, hr', h => by
    have hop := (hr' (.symbol op.symbol) (by rw [← List.nil_append r']; exact h ▸ rfl)).2 op
    exact absurd rfl hop
  | (op, operand) :: rest, (op', operand') :: rest', r, r', hr, hr', h => by
    simp only [Expression.restTokens, List.cons_append, List.append_assoc, List.cons.injEq,
      TokenKind.symbol.injEq] at h
    obtain ⟨hop, h⟩ := h
    obtain ⟨hoperand, h⟩ := Term.tokens_append_inj operand operand' (termEnd_rest rest hr)
      (termEnd_rest rest' hr') h
    obtain ⟨hrest, h⟩ := Expression.restTokens_append_inj rest rest' hr hr' h
    exact ⟨by rw [BinaryOperator.symbol_injective hop, hoperand, hrest], h⟩

theorem Call.tokens_append_inj : ∀ (c c' : Call) {r r' : List TokenKind},
    c.tokens ++ r = c'.tokens ++ r' → c = c' ∧ r = r'
  | .mk receiver name arguments, .mk receiver' name' arguments', r, r', h => by
    simp only [Call.tokens, enclosed, List.cons_append, List.append_assoc, List.nil_append] at h
    have hhead : receiver = receiver' ∧ name = name' ∧
        Call.argumentTokens arguments ++ .symbol .rightParen :: r =
          Call.argumentTokens arguments' ++ .symbol .rightParen :: r' := by
      cases receiver <;> cases receiver' <;> simp_all [Call.headTokens]
    obtain ⟨hreceiver, hname, h⟩ := hhead
    obtain ⟨harguments, h⟩ := Call.argumentTokens_append_inj arguments arguments' h
    exact ⟨by rw [hreceiver, hname, harguments], h⟩

theorem Call.argumentTokens_append_inj : ∀ (es es' : List Expression) {r r' : List TokenKind},
    Call.argumentTokens es ++ .symbol .rightParen :: r =
      Call.argumentTokens es' ++ .symbol .rightParen :: r' → es = es' ∧ r = r'
  | [], [], r, r', h => ⟨rfl, (List.cons.inj h).2⟩
  | [], e' :: more', r, r', h => by
    simp only [Call.argumentTokens, List.append_assoc, List.nil_append] at h
    exact absurd h.symm (e'.tokens_append_ne (by simp))
  | e :: more, [], r, r', h => by
    simp only [Call.argumentTokens, List.append_assoc, List.nil_append] at h
    exact absurd h (e.tokens_append_ne (by simp))
  | e :: more, e' :: more', r, r', h => by
    simp only [Call.argumentTokens, List.append_assoc] at h
    obtain ⟨he, h⟩ := Expression.tokens_append_inj e e' (expressionEnd_more more)
      (expressionEnd_more more') h
    obtain ⟨hmore, h⟩ := Call.moreTokens_append_inj more more' h
    exact ⟨by rw [he, hmore], h⟩

theorem Call.moreTokens_append_inj : ∀ (es es' : List Expression) {r r' : List TokenKind},
    Call.moreTokens es ++ .symbol .rightParen :: r =
      Call.moreTokens es' ++ .symbol .rightParen :: r' → es = es' ∧ r = r'
  | [], [], r, r', h => ⟨rfl, (List.cons.inj h).2⟩
  | [], e' :: more', r, r', h => by simp [Call.moreTokens] at h
  | e :: more, [], r, r', h => by simp [Call.moreTokens] at h
  | e :: more, e' :: more', r, r', h => by
    simp only [Call.moreTokens, List.cons_append, List.append_assoc, List.cons.injEq,
      true_and] at h
    obtain ⟨he, h⟩ := Expression.tokens_append_inj e e' (expressionEnd_more more)
      (expressionEnd_more more') h
    obtain ⟨hmore, h⟩ := Call.moreTokens_append_inj more more' h
    exact ⟨by rw [he, hmore], h⟩

end

/-- An expression and a symbol that ends it. -/
theorem Expression.tokens_symbol_inj {e e' : Expression} {y : Symbol}
    (hy : TokenKind.EndsExpression (.symbol y))
    (h : e.tokens ++ .symbol y :: r = e'.tokens ++ .symbol y :: r') : e = e' ∧ r = r' := by
  obtain ⟨he, h⟩ := e.tokens_append_inj e' (expressionEnd_cons hy) (expressionEnd_cons hy) h
  exact ⟨he, (List.cons.inj h).2⟩

/-- Two expressions with the same tokens are the same. -/
theorem Expression.tokens_injective {e e' : Expression} (h : e.tokens = e'.tokens) : e = e' :=
  (Expression.tokens_append_inj e e' expressionEnd_nil expressionEnd_nil (by rw [h])).1

/-! ## Statements -/

/-- The tokens do not go on with a statement that stands before them. -/
def StatementEnd (r : List TokenKind) : Prop := ∀ k ∈ r.head?, k ≠ .keyword .else_

theorem statementEnd_block (ts : List Statement) :
    StatementEnd (Statement.blockTokens ts ++ .symbol .rightBrace :: r) := by
  intro k hk
  cases ts with
  | nil =>
    obtain rfl : .symbol .rightBrace = k := by simpa [Statement.blockTokens] using hk
    simp
  | cons t ts =>
    obtain ⟨w, ks, hks, hstarts⟩ := t.tokens_cons
    obtain rfl : .keyword w = k := by simpa [Statement.blockTokens, hks] using hk
    exact TokenKind.FollowsStatement.ne_keyword (.inr ⟨w, rfl, hstarts⟩)
      (by simp [Keyword.StartsStatement])

theorem Statement.tokens_append_ne (t : Statement) {y : Symbol} :
    t.tokens ++ r ≠ .symbol y :: r' := by
  obtain ⟨w, ks, hks, -⟩ := t.tokens_cons
  rw [hks, List.cons_append]
  simp

/-- The keyword that a statement starts with. -/
def Statement.word : Statement → Keyword
  | .let_ _ _ | .letElement _ _ _ => .let_
  | .if_ _ _ | .ifElse _ _ _ => .if_
  | .while_ _ _ => .while_
  | .do_ _ => .do_
  | .return_ _ => .return_

theorem Statement.word_eq {t t' : Statement} (h : t.tokens ++ r = t'.tokens ++ r') :
    t.word = t'.word := by
  have hhead : ∀ (t : Statement) (r : List TokenKind), (t.tokens ++ r).head? =
      some (.keyword t.word) := by
    intro t r
    cases t with
    | return_ value => cases value <;> rfl
    | _ => rfl
  have hword := (hhead t r).symm.trans (h ▸ hhead t' r')
  simpa using hword

mutual

theorem Statement.tokens_append_inj : ∀ (t t' : Statement) {r r' : List TokenKind},
    StatementEnd r → StatementEnd r' → t.tokens ++ r = t'.tokens ++ r' → t = t' ∧ r = r'
  | .let_ name value, t', r, r', _, _, h => by
    have hword := Statement.word_eq h
    cases t' with
    | let_ name' value' =>
      simp only [Statement.tokens, List.cons_append, List.append_assoc, List.nil_append,
        List.cons.injEq, TokenKind.identifier.injEq, true_and] at h
      obtain ⟨hname, h⟩ := h
      obtain ⟨hvalue, h⟩ := Expression.tokens_symbol_inj TokenKind.endsExpression_semicolon h
      exact ⟨by rw [hname, hvalue], h⟩
    | letElement name' index' value' => simp [Statement.tokens, enclosed] at h
    | _ => simp [Statement.word] at hword
  | .letElement name index value, t', r, r', _, _, h => by
    have hword := Statement.word_eq h
    cases t' with
    | let_ name' value' => simp [Statement.tokens, enclosed] at h
    | letElement name' index' value' =>
      simp only [Statement.tokens, enclosed, List.cons_append, List.append_assoc, List.nil_append,
        List.cons.injEq, TokenKind.identifier.injEq, true_and] at h
      obtain ⟨hname, h⟩ := h
      obtain ⟨hindex, h⟩ := Expression.tokens_symbol_inj TokenKind.endsExpression_rightBracket h
      obtain ⟨hvalue, h⟩ := Expression.tokens_symbol_inj TokenKind.endsExpression_semicolon
        (List.cons.inj h).2
      exact ⟨by rw [hname, hindex, hvalue], h⟩
    | _ => simp [Statement.word] at hword
  | .if_ condition yes, t', r, r', hr, _, h => by
    have hword := Statement.word_eq h
    cases t' with
    | if_ condition' yes' =>
      simp only [Statement.tokens, enclosed, List.cons_append, List.append_assoc, List.nil_append,
        List.cons.injEq, true_and] at h
      obtain ⟨hcondition, h⟩ := Expression.tokens_symbol_inj TokenKind.endsExpression_rightParen h
      obtain ⟨hyes, h⟩ := Statement.blockTokens_append_inj yes yes' (List.cons.inj h).2
      exact ⟨by rw [hcondition, hyes], h⟩
    | ifElse condition' yes' no' =>
      simp only [Statement.tokens, enclosed, List.cons_append, List.append_assoc, List.nil_append,
        List.cons.injEq, true_and] at h
      obtain ⟨-, h⟩ := Expression.tokens_symbol_inj TokenKind.endsExpression_rightParen h
      obtain ⟨-, h⟩ := Statement.blockTokens_append_inj yes yes' (List.cons.inj h).2
      exact absurd rfl (hr (.keyword .else_) (by rw [h]; rfl))
    | _ => simp [Statement.word] at hword
  | .ifElse condition yes no, t', r, r', _, hr', h => by
    have hword := Statement.word_eq h
    cases t' with
    | if_ condition' yes' =>
      simp only [Statement.tokens, enclosed, List.cons_append, List.append_assoc, List.nil_append,
        List.cons.injEq, true_and] at h
      obtain ⟨-, h⟩ := Expression.tokens_symbol_inj TokenKind.endsExpression_rightParen h
      obtain ⟨-, h⟩ := Statement.blockTokens_append_inj yes yes' (List.cons.inj h).2
      exact absurd rfl (hr' (.keyword .else_) (by rw [← h]; rfl))
    | ifElse condition' yes' no' =>
      simp only [Statement.tokens, enclosed, List.cons_append, List.append_assoc, List.nil_append,
        List.cons.injEq, true_and] at h
      obtain ⟨hcondition, h⟩ := Expression.tokens_symbol_inj TokenKind.endsExpression_rightParen h
      obtain ⟨hyes, h⟩ := Statement.blockTokens_append_inj yes yes' (List.cons.inj h).2
      simp only [List.cons.injEq, true_and] at h
      obtain ⟨hno, h⟩ := Statement.blockTokens_append_inj no no' h
      exact ⟨by rw [hcondition, hyes, hno], h⟩
    | _ => simp [Statement.word] at hword
  | .while_ condition body, t', r, r', _, _, h => by
    have hword := Statement.word_eq h
    cases t' with
    | while_ condition' body' =>
      simp only [Statement.tokens, enclosed, List.cons_append, List.append_assoc, List.nil_append,
        List.cons.injEq, true_and] at h
      obtain ⟨hcondition, h⟩ := Expression.tokens_symbol_inj TokenKind.endsExpression_rightParen h
      obtain ⟨hbody, h⟩ := Statement.blockTokens_append_inj body body' (List.cons.inj h).2
      exact ⟨by rw [hcondition, hbody], h⟩
    | _ => simp [Statement.word] at hword
  | .do_ call, t', r, r', _, _, h => by
    have hword := Statement.word_eq h
    cases t' with
    | do_ call' =>
      simp only [Statement.tokens, List.cons_append, List.append_assoc, List.nil_append,
        List.cons.injEq, true_and] at h
      obtain ⟨hcall, h⟩ := Call.tokens_append_inj call call' h
      exact ⟨by rw [hcall], (List.cons.inj h).2⟩
    | _ => simp [Statement.word] at hword
  | .return_ value, t', r, r', _, _, h => by
    have hword := Statement.word_eq h
    cases t' with
    | return_ value' =>
      cases value with
      | none =>
        cases value' with
        | none => simpa [Statement.tokens] using h
        | some e' =>
          simp only [Statement.tokens, List.cons_append, List.append_assoc, List.nil_append,
            List.cons.injEq, true_and] at h
          exact absurd h.symm (e'.tokens_append_ne (by simp))
      | some e =>
        cases value' with
        | none =>
          simp only [Statement.tokens, List.cons_append, List.append_assoc, List.nil_append,
            List.cons.injEq, true_and] at h
          exact absurd h (e.tokens_append_ne (by simp))
        | some e' =>
          simp only [Statement.tokens, List.cons_append, List.append_assoc, List.nil_append,
            List.cons.injEq, true_and] at h
          obtain ⟨he, h⟩ := Expression.tokens_symbol_inj TokenKind.endsExpression_semicolon h
          exact ⟨by rw [he], h⟩
    | _ => simp [Statement.word] at hword

theorem Statement.blockTokens_append_inj : ∀ (ts ts' : List Statement) {r r' : List TokenKind},
    Statement.blockTokens ts ++ .symbol .rightBrace :: r =
      Statement.blockTokens ts' ++ .symbol .rightBrace :: r' → ts = ts' ∧ r = r'
  | [], [], r, r', h => ⟨rfl, (List.cons.inj h).2⟩
  | [], t' :: ts', r, r', h => by
    simp only [Statement.blockTokens, List.append_assoc, List.nil_append] at h
    exact absurd h.symm t'.tokens_append_ne
  | t :: ts, [], r, r', h => by
    simp only [Statement.blockTokens, List.append_assoc, List.nil_append] at h
    exact absurd h t.tokens_append_ne
  | t :: ts, t' :: ts', r, r', h => by
    simp only [Statement.blockTokens, List.append_assoc] at h
    obtain ⟨ht, h⟩ := Statement.tokens_append_inj t t' (statementEnd_block ts)
      (statementEnd_block ts') h
    obtain ⟨hts, h⟩ := Statement.blockTokens_append_inj ts ts' h
    exact ⟨by rw [ht, hts], h⟩

end

/-! ## Declarations -/

/-- Things in a row, if each of them ends by itself and what follows starts no other one. -/
theorem flatMap_append_inj {α : Type} (tokens : α → List TokenKind) (stop : List TokenKind → Prop)
    (hinj : ∀ {a a' : α} {r r' : List TokenKind}, tokens a ++ r = tokens a' ++ r' → a = a' ∧ r = r')
    (hstop : ∀ (a : α) (r : List TokenKind), ¬ stop (tokens a ++ r)) :
    ∀ (as as' : List α) {r r' : List TokenKind}, stop r → stop r' →
      as.flatMap tokens ++ r = as'.flatMap tokens ++ r' → as = as' ∧ r = r'
  | [], [], r, r', _, _, h => ⟨rfl, h⟩
  | [], a' :: as', r, r', hr, _, h => by
    rw [List.flatMap_nil, List.nil_append, List.flatMap_cons, List.append_assoc] at h
    exact absurd (h ▸ hr) (hstop a' _)
  | a :: as, [], r, r', _, hr', h => by
    rw [List.flatMap_nil, List.nil_append, List.flatMap_cons, List.append_assoc] at h
    exact absurd (h ▸ hr') (hstop a _)
  | a :: as, a' :: as', r, r', hr, hr', h => by
    rw [List.flatMap_cons, List.flatMap_cons, List.append_assoc, List.append_assoc] at h
    obtain ⟨ha, h⟩ := hinj h
    obtain ⟨has, h⟩ := flatMap_append_inj tokens stop hinj hstop as as' hr hr' h
    exact ⟨by rw [ha, has], h⟩

theorem TypeName.token_injective {t t' : TypeName} (h : t.token = t'.token) : t = t' := by
  cases t <;> cases t' <;> simp_all [token]

theorem VariableDec.tokens_append_inj {d d' : VariableDec} (h : d.tokens ++ r = d'.tokens ++ r') :
    d = d' ∧ r = r' := by
  obtain ⟨type, first, more⟩ := d
  obtain ⟨type', first', more'⟩ := d'
  simp only [tokens, List.cons_append, List.append_assoc, List.nil_append, List.cons.injEq,
    TokenKind.identifier.injEq] at h
  obtain ⟨htype, hfirst, h⟩ := h
  have hnames := flatMap_append_inj (fun name => [.symbol .comma, .identifier name])
    (fun r => r.head? = some (.symbol .semicolon)) (by simp) (by simp) more more' rfl rfl h
  exact ⟨by rw [TypeName.token_injective htype, hfirst, hnames.1], (List.cons.inj hnames.2).2⟩

theorem ClassVariableDec.tokens_append_inj {d d' : ClassVariableDec}
    (h : d.tokens ++ r = d'.tokens ++ r') : d = d' ∧ r = r' := by
  obtain ⟨storage, vars⟩ := d
  obtain ⟨storage', vars'⟩ := d'
  simp only [tokens, List.cons_append, List.cons.injEq, TokenKind.keyword.injEq] at h
  obtain ⟨hword, h⟩ := h
  obtain ⟨hvars, h⟩ := VariableDec.tokens_append_inj h
  have hstorage : storage = storage' := by
    cases storage <;> cases storage' <;> simp_all [ClassStorage.keyword]
  exact ⟨by rw [hstorage, hvars], h⟩

theorem Parameter.tokens_append_inj {p p' : Parameter} (h : p.tokens ++ r = p'.tokens ++ r') :
    p = p' ∧ r = r' := by
  obtain ⟨type, name⟩ := p
  obtain ⟨type', name'⟩ := p'
  simp only [tokens, List.cons_append, List.nil_append, List.cons.injEq,
    TokenKind.identifier.injEq] at h
  exact ⟨by rw [TypeName.token_injective h.1, h.2.1], h.2.2⟩

theorem Parameter.listTokens_append_inj {ps ps' : List Parameter}
    (h : listTokens ps ++ .symbol .rightParen :: r = listTokens ps' ++ .symbol .rightParen :: r') :
    ps = ps' ∧ r = r' := by
  have hfirst : ∀ (p : Parameter) (ks : List TokenKind), p.tokens ++ ks ≠ .symbol .rightParen :: r ∧
      p.tokens ++ ks ≠ .symbol .rightParen :: r' := by
    intro p ks
    cases ht : p.type <;> simp [tokens, TypeName.token, ht]
  cases ps with
  | nil =>
    cases ps' with
    | nil => exact ⟨rfl, (List.cons.inj h).2⟩
    | cons p' more' =>
      rw [listTokens, listTokens, List.nil_append, List.append_assoc] at h
      exact absurd h.symm (hfirst p' _).1
  | cons p more =>
    cases ps' with
    | nil =>
      rw [listTokens, listTokens, List.nil_append, List.append_assoc] at h
      exact absurd h (hfirst p _).2
    | cons p' more' =>
      rw [listTokens, listTokens, List.append_assoc, List.append_assoc] at h
      obtain ⟨hp, h⟩ := tokens_append_inj h
      have hmore := flatMap_append_inj (fun q : Parameter => .symbol .comma :: q.tokens)
        (fun r => r.head? = some (.symbol .rightParen))
        (fun h => tokens_append_inj (List.cons.inj h).2) (by simp) more more' rfl rfl h
      exact ⟨by rw [hp, hmore.1], (List.cons.inj hmore.2).2⟩

theorem SubroutineDec.tokens_append_inj {d d' : SubroutineDec}
    (h : d.tokens ++ r = d'.tokens ++ r') : d = d' ∧ r = r' := by
  obtain ⟨kind, result, name, parameters, locals, body⟩ := d
  obtain ⟨kind', result', name', parameters', locals', body'⟩ := d'
  simp only [tokens, enclosed, List.cons_append, List.append_assoc, List.nil_append,
    List.cons.injEq, TokenKind.identifier.injEq, TokenKind.keyword.injEq, true_and] at h
  obtain ⟨hkind, hresult, hname, h⟩ := h
  obtain ⟨hparameters, h⟩ := Parameter.listTokens_append_inj h
  -- A block starts with a statement or ends at once, so the locals end where it starts.
  have hnoVar : ∀ (ts : List Statement) (r : List TokenKind),
      (Statement.blockTokens ts ++ .symbol .rightBrace :: r).head? ≠ some (.keyword .var) := by
    intro ts r
    cases ts with
    | nil => simp [Statement.blockTokens]
    | cons t ts =>
      obtain ⟨w, ks, hks, hstarts⟩ := t.tokens_cons
      rw [Statement.blockTokens, hks]
      rintro h
      obtain rfl : w = .var := by simpa using h
      simp [Keyword.StartsStatement] at hstarts
  obtain ⟨hlocals, h⟩ := flatMap_append_inj (fun d : VariableDec => .keyword .var :: d.tokens)
    (fun r => r.head? ≠ some (.keyword .var))
    (fun h => VariableDec.tokens_append_inj (List.cons.inj h).2) (by simp) locals locals'
    (hnoVar body r) (hnoVar body' r') (List.cons.inj h).2
  obtain ⟨hbody, h⟩ := Statement.blockTokens_append_inj body body' h
  have hkind : kind = kind' := by
    cases kind <;> cases kind' <;> simp_all [SubroutineKind.keyword]
  have hresult : result = result' := by
    cases result with
    | none =>
      cases result' with
      | none => rfl
      | some t' => cases t' <;> simp [resultToken, TypeName.token] at hresult
    | some t =>
      cases result' with
      | none => cases t <;> simp [resultToken, TypeName.token] at hresult
      | some t' => rw [TypeName.token_injective hresult]
  exact ⟨by rw [hkind, hresult, hname, hparameters, hlocals, hbody], h⟩

/-- **Classes.** Two classes with the same tokens are the same. -/
theorem ClassDec.tokens_injective {c c' : ClassDec} (h : c.tokens = c'.tokens) : c = c' := by
  obtain ⟨name, vars, subroutines⟩ := c
  obtain ⟨name', vars', subroutines'⟩ := c'
  simp only [tokens, enclosed, List.append_assoc, List.cons.injEq, TokenKind.identifier.injEq,
    true_and] at h
  obtain ⟨hname, h⟩ := h
  have hnext : ∀ (ds : List SubroutineDec) (w : ClassStorage),
      (ds.flatMap SubroutineDec.tokens ++ [TokenKind.symbol .rightBrace]).head? ≠
        some (.keyword w.keyword) := by
    intro ds w
    cases ds with
    | nil => simp
    | cons d ds =>
      cases hkind : d.kind <;> cases w <;>
        simp [SubroutineDec.tokens, SubroutineKind.keyword, ClassStorage.keyword, hkind]
  obtain ⟨hvars, h⟩ := flatMap_append_inj ClassVariableDec.tokens
    (fun r => ∀ w : ClassStorage, r.head? ≠ some (.keyword w.keyword))
    ClassVariableDec.tokens_append_inj (fun d r hd => hd d.storage rfl) vars vars'
    (hnext subroutines) (hnext subroutines') h
  obtain ⟨hsubroutines, -⟩ := flatMap_append_inj SubroutineDec.tokens
    (fun r => r = [.symbol .rightBrace]) SubroutineDec.tokens_append_inj
    (by simp [SubroutineDec.tokens]) subroutines subroutines' rfl rfl h
  rw [hname, hvars, hsubroutines]

end Jack
