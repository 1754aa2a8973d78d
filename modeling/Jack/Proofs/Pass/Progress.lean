import Jack.Proofs.Pass.Pace

/-!
# Progress

Every function of the grammar keeps the pace, and a larger bound makes no difference to it. The two
passes that `Paced` compares are the function on a tracer with one bound, and the function on a
journal with another one that is not smaller.

A function that enters another one at once has to have a higher rank; after a token has been used up
any function may be entered. For most functions one look at the code is enough. The exception is the
loop over statements: its next round is entered after a statement, which leaves more entries paid
for than it was given, and so has used up a token.
-/

namespace Jack

namespace Pass

variable {base rank n g bound bound' : Nat} {s : State}

/-! ## Expressions -/

section Expression

variable {context : Context}

theorem paced_call {arguments : PassOn Tracer Problem Nat} {arguments' : Pass Nat}
    (h : ∀ {base rank s}, Ready base rank bound s 3 →
      Paced base rank 5 0 arguments arguments' s)
    (name : String) (line : Nat) (hready : Ready base rank bound s 1) :
    Paced base rank 1 0 (entering .call bound (call context arguments name line))
      (entering .call bound' (call context arguments' name line)) s := by
  have hbound : 0 < bound := by have := hready.bound; omega
  have hbegun : Begun s.used bound s := ⟨le_rfl, by have := hready.bound; omega⟩
  refine paced_entering hready.room hbound (by decide : 0 < 1) ?_
  refine paced_leaf_bind (leaf_callee context name line) fun {x _} hmoves => ?_
  obtain ⟨routine, implicit⟩ := x
  refine paced_step_bind (leaf_punctuation _) punctuation_ok fun hmoves' hlt => ?_
  refine (h ((hbegun.mono hmoves).ready hmoves' hlt le_rfl)).bind fun {count _} _ _ => ?_
  by_cases hle : count + implicit ≤ maxArguments
  · simp only [hle]
    exact paced_leaf_bind (leaf_punctuation _) fun _ => paced_leaf (leaf_write _) le_rfl
  · simp only [hle]
    exact paced_leaf ((leaf_complain _).bind fun _ => (leaf_punctuation _).bind fun _ =>
      leaf_write _) le_rfl

/-- All functions on expressions, with two bounds. -/
structure ExpressionsPaced (context : Context) (bound bound' : Nat) : Prop where
  term : ∀ {base rank s}, Ready base rank bound s 1 →
    Paced base rank 1 0 (term context bound) (term context bound') s
  expression : ∀ {base rank s}, Ready base rank bound s 2 →
    Paced base rank 3 0 (expression context bound) (expression context bound') s
  operations : ∀ {base rank s}, Ready base rank bound s 1 →
    Paced base rank 1 0 (operations context bound) (operations context bound') s
  arguments : ∀ {base rank s}, Ready base rank bound s 3 →
    Paced base rank 5 0 (arguments context bound) (arguments context bound') s
  moreArguments : ∀ {base rank s}, Ready base rank bound s 1 → ∀ count,
    Paced base rank 1 0 (moreArguments context bound count)
      (moreArguments context bound' count) s

theorem paced_term (ih : ExpressionsPaced context bound bound')
    (hready : Ready base rank (bound + 1) s 1) :
    Paced base rank 1 0 (term context (bound + 1)) (term context (bound' + 1)) s := by
  have hbegun := hready.begun
  rw [term, term]
  refine paced_entering hready.room (Nat.succ_pos _) Nat.zero_lt_one ?_
  refine paced_still_bind (x := s.tokens.current) (fun _ _ => rfl) rfl ?_
  cases hk : s.tokens.current.kind with
  | integer value digits =>
    exact paced_leaf_bind leaf_next fun _ => paced_leaf (leaf_write _) le_rfl
  | string characters =>
    exact paced_leaf_bind leaf_next fun _ => paced_leaf (leaf_stringConstant _) le_rfl
  | keyword w =>
    cases hcode : keywordConstant? w with
    | none =>
      simp only [hcode]
      exact paced_leaf (leaf_unexpected _) le_rfl
    | some code =>
      simp only [hcode]
      exact paced_leaf_bind (leaf_writeAll _) fun _ =>
        paced_leaf_bind leaf_next fun _ => paced_leaf (leaf_pure _) le_rfl
  | identifier name =>
    refine paced_next_bind (by simp [hk]) fun {_ s₁} hmoves hlt => ?_
    have hcall : ∀ l, Paced s.used 0 5 0
        (entering .call bound (call context (arguments context bound) name l))
        (entering .call bound' (call context (arguments context bound') name l)) s₁ := fun l =>
      (paced_call ih.arguments name l (hbegun.ready hmoves hlt (by decide))).mono
        (by decide) (by decide)
    have hvariable : ∀ l, Paced s.used 0 5 0 (do write (← variableNamed context name l).push)
        (do write (← variableNamed context name l).push) s₁ := fun l =>
      paced_leaf ((leaf_variableNamed _ _ _).bind fun _ => leaf_write _) (Nat.zero_le _)
    refine paced_still_bind (x := s₁.tokens.current.kind.symbol?) (fun _ _ => rfl) rfl ?_
    cases s₁.tokens.current.kind.symbol? with
    | none => exact hvariable _
    | some y =>
      cases y with
      | leftBracket =>
        refine paced_leaf_bind (leaf_variableNamed _ _ _) fun hmoves₂ => ?_
        refine paced_leaf_bind leaf_next fun hmoves₃ => ?_
        refine paced_leaf_bind (leaf_write _) fun hmoves₄ => ?_
        have hlater : Ready s.used 0 bound _ 2 :=
          (hbegun.ready hmoves hlt (by decide)).mono (hmoves₂.trans (hmoves₃.trans hmoves₄))
        refine Paced.bind (m := 0) ((ih.expression hlater).mono (by decide) (by decide))
          fun _ _ => ?_
        exact paced_leaf_bind (leaf_punctuation _) fun _ =>
          paced_leaf (leaf_writeAll _) le_rfl
      | leftParen | dot => exact hcall _
      | _ => exact hvariable _
  | symbol y =>
    cases y with
    | leftParen =>
      exact paced_between fun hmoves hlt =>
        (ih.expression (hbegun.ready hmoves hlt (by decide))).mono (by decide) (by decide)
    | minus | tilde =>
      refine paced_next_bind (by simp [hk]) fun hmoves hlt => ?_
      refine Paced.bind (m := 0)
        ((ih.term (hbegun.ready hmoves hlt (by decide))).mono (by decide) (by decide)) fun _ _ => ?_
      exact paced_leaf (leaf_write _) le_rfl
    | _ => exact paced_leaf (leaf_unexpected _) le_rfl
  | eof => exact paced_leaf (leaf_unexpected _) le_rfl

theorem paced_expression (ih : ExpressionsPaced context bound bound')
    (hready : Ready base rank (bound + 1) s 2) :
    Paced base rank 3 0 (expression context (bound + 1))
      (expression context (bound' + 1)) s := by
  have hlower : Ready s.used 1 bound s 1 := hready.lower (by decide) le_rfl
  rw [expression, expression]
  refine paced_entering hready.room (Nat.succ_pos _) (by decide : 1 < 2) ?_
  refine Paced.bind (m := 1) ((ih.term hlower).mono (by decide) (by decide)) fun _ hmoves => ?_
  exact ih.operations (hlower.mono hmoves)

theorem paced_operations (ih : ExpressionsPaced context bound bound')
    (hready : Ready base rank (bound + 1) s 1) :
    Paced base rank 1 0 (operations context (bound + 1))
      (operations context (bound' + 1)) s := by
  have hbegun := hready.begun
  rw [operations, operations]
  refine paced_entering hready.room (Nat.succ_pos _) Nat.zero_lt_one ?_
  refine paced_still_bind (x := s.tokens.current.kind.symbol?) (fun _ _ => rfl) rfl ?_
  cases hoperator : s.tokens.current.kind.symbol?.bind binaryOperator? with
  | none => exact paced_leaf (leaf_pure _) le_rfl
  | some operator =>
    obtain ⟨y, hy, -⟩ := Option.bind_eq_some_iff.mp hoperator
    refine paced_next_bind (TokenKind.ne_eof_of_symbol? hy) fun hmoves hlt => ?_
    have hlater : Ready s.used 0 bound _ 1 := hbegun.ready hmoves hlt (by decide)
    refine Paced.bind (m := 1) ((ih.term hlater).mono (by decide) (by decide)) fun _ hmoves' => ?_
    exact paced_leaf_bind (leaf_write _) fun hmoves'' =>
      ih.operations (hlater.mono (hmoves'.trans hmoves''))

theorem paced_arguments (ih : ExpressionsPaced context bound bound')
    (hready : Ready base rank (bound + 1) s 3) :
    Paced base rank 5 0 (arguments context (bound + 1))
      (arguments context (bound' + 1)) s := by
  rw [arguments, arguments]
  refine paced_entering hready.room (Nat.succ_pos _) (by decide : 2 < 3) ?_
  refine paced_still_bind (x := s.tokens.current.kind.symbol?) (fun _ _ => rfl) rfl ?_
  by_cases hy : s.tokens.current.kind.symbol? = some .rightParen
  · rw [if_pos hy, if_pos hy]
    exact paced_leaf (leaf_pure _) (Nat.zero_le _)
  · rw [if_neg hy, if_neg hy]
    refine Paced.bind (m := 1) ((ih.expression (hready.lower (by decide) le_rfl)).mono
      (by decide) (by decide)) fun _ hmoves => ?_
    exact ih.moreArguments ((hready.lower (by decide) (by decide)).mono hmoves) 1

theorem paced_moreArguments (ih : ExpressionsPaced context bound bound')
    (hready : Ready base rank (bound + 1) s 1) (count : Nat) :
    Paced base rank 1 0 (moreArguments context (bound + 1) count)
      (moreArguments context (bound' + 1) count) s := by
  have hbegun := hready.begun
  rw [moreArguments, moreArguments]
  refine paced_entering hready.room (Nat.succ_pos _) Nat.zero_lt_one ?_
  refine paced_accept_bind (by simp) (by simp) (fun hmoves hlt => ?_)
    (paced_leaf (leaf_pure _) le_rfl)
  refine Paced.bind (m := 1) ((ih.expression (hbegun.ready hmoves hlt (by decide))).mono
    (by decide) (by decide)) fun _ hmoves' => ?_
  have hlater : Ready s.used 0 bound _ 1 :=
    (hbegun.ready hmoves hlt (by decide)).mono hmoves'
  by_cases hle : count + 1 ≤ maxArguments
  · simp only [hle]
    exact ih.moreArguments hlater _
  · simp only [hle]
    exact paced_leaf_bind (leaf_complain _) fun hmoves'' =>
      ih.moreArguments (hlater.mono hmoves'') _

theorem expressionsPaced (context : Context) (hle : bound ≤ bound') :
    ExpressionsPaced context bound bound' := by
  induction bound generalizing bound' with
  | zero =>
    exact ⟨fun h => absurd h not_ready_zero, fun h => absurd h not_ready_zero,
      fun h => absurd h not_ready_zero, fun h => absurd h not_ready_zero,
      fun h => absurd h not_ready_zero⟩
  | succ bound ih =>
    obtain ⟨bound', rfl⟩ := Nat.exists_eq_add_of_lt hle
    have ih := @ih (bound + bound') (Nat.le_add_right _ _)
    exact ⟨paced_term ih, paced_expression ih, paced_operations ih, paced_arguments ih,
      paced_moreArguments ih⟩

/-- An expression that comes after a token is paid for by it. -/
theorem paced_expression_of (hle : bound ≤ bound') (hready : Ready base rank bound s 2)
    (hg : g + 3 ≤ n) :
    Paced base rank n g (expression context bound) (expression context bound') s :=
  ((expressionsPaced context hle).expression hready).mono (by omega) (by omega)

end Expression

/-! ## Statements -/

section Statement

variable {context : Context}

theorem paced_condition (hle : bound ≤ bound') (hbegun : Begun base bound s) (target : String) :
    Paced base rank n n (condition context bound target)
      (condition context bound' target) s :=
  Paced.bind (m := n) (paced_between fun hmoves hlt =>
    paced_expression_of hle (hbegun.ready hmoves hlt (by decide)) (by decide)) fun _ _ =>
    paced_leaf (leaf_writeAll _) le_rfl

theorem paced_letStatement (hle : bound ≤ bound') (hbegun : Begun base bound s) :
    Paced base rank 0 2 (letStatement context bound) (letStatement context bound') s := by
  refine paced_step_bind (leaf_keyword _) keyword_ok
    fun {_ s₁} hmoves hlt => ?_
  have hready : Ready base rank bound s₁ 2 := hbegun.ready hmoves hlt (by decide)
  refine paced_still_bind (x := s₁.tokens.current.line) (fun _ _ => rfl) rfl ?_
  refine paced_leaf_bind leaf_expectName fun hmoves₂ => ?_
  refine paced_leaf_bind (leaf_variableNamed _ _ _) fun {v s₃} hmoves₃ => ?_
  have hready₃ := (hready.mono hmoves₂).mono hmoves₃
  refine paced_accept_bind (by simp) (by simp) (fun hmoves₄ _ => ?_) ?_
  · refine paced_leaf_bind (leaf_write _) fun hmoves₅ => ?_
    have hready₅ := (hready₃.mono hmoves₄).mono hmoves₅
    refine Paced.bind (m := 7) (paced_expression_of hle hready₅ (by decide)) fun _ hmoves₆ => ?_
    refine paced_leaf_bind (leaf_punctuation _) fun hmoves₇ => ?_
    refine paced_leaf_bind (leaf_write _) fun hmoves₈ => ?_
    refine paced_leaf_bind (leaf_punctuation _) fun hmoves₉ => ?_
    have hready₉ := hready₅.mono (hmoves₆.trans (hmoves₇.trans (hmoves₈.trans hmoves₉)))
    refine Paced.bind (m := 2) (paced_expression_of hle hready₉ (by decide)) fun _ _ => ?_
    exact paced_leaf_bind (leaf_writeAll _) fun _ =>
      paced_leaf (leaf_punctuation _) le_rfl
  · refine paced_leaf_bind (leaf_punctuation _) fun hmoves₄ => ?_
    refine Paced.bind (m := 2) (paced_expression_of hle (hready₃.mono hmoves₄) (by decide))
      fun _ _ => ?_
    exact paced_leaf_bind (leaf_write _) fun _ =>
      paced_leaf (leaf_punctuation _) le_rfl

theorem paced_doStatement (hle : bound ≤ bound') (hbegun : Begun base bound s) :
    Paced base rank 0 2 (doStatement context bound) (doStatement context bound') s := by
  refine paced_step_bind (leaf_keyword _) keyword_ok
    fun {_ s₁} hmoves hlt => ?_
  refine paced_still_bind (x := s₁.tokens.current.line) (fun _ _ => rfl) rfl ?_
  refine paced_leaf_bind leaf_expectName fun hmoves₂ => ?_
  refine Paced.bind (m := 2) ((paced_call (expressionsPaced context hle).arguments _ _
    ((hbegun.ready hmoves hlt (by decide)).mono hmoves₂)).mono (by decide) (by decide))
    fun _ _ => ?_
  exact paced_leaf_bind (leaf_write _) fun _ =>
    paced_leaf (leaf_punctuation _) le_rfl

theorem paced_returnStatement (hle : bound ≤ bound') (hbegun : Begun base bound s) :
    Paced base rank 0 2 (returnStatement context bound)
      (returnStatement context bound') s := by
  refine paced_step_bind (leaf_keyword _) keyword_ok
    fun {_ s₁} hmoves hlt => ?_
  refine paced_still_bind (x := s₁.tokens.current.kind.symbol?) (fun _ _ => rfl) rfl ?_
  have hrest : ∀ s', Paced base rank 2 2 (do
        (punctuation .semicolon)
        (write .return_))
      (do punctuation .semicolon; write .return_) s' := fun s' =>
    paced_leaf_bind (leaf_punctuation _) fun _ =>
      paced_leaf (leaf_write _) le_rfl
  by_cases hy : s₁.tokens.current.kind.symbol? = some .semicolon
  · simp only [if_pos hy]
    exact paced_leaf_bind (leaf_write _) fun _ => (hrest _).mono (by decide) (by decide)
  · simp only [if_neg hy]
    exact Paced.bind (m := 2) (paced_expression_of hle (hbegun.ready hmoves hlt (by decide))
      (by decide)) fun _ _ => hrest _

/-- All functions on statements, with two bounds. -/
structure StatementsPaced (context : Context) (bound bound' : Nat) : Prop where
  statements : ∀ {base rank s}, Ready base rank bound s 3 → ∀ labels,
    Paced base rank 3 0 (statements context bound labels) (statements context bound' labels) s
  statement : ∀ {base rank s}, Ready base rank bound s 2 → ∀ labels,
    Paced base rank 2 3 (statement context bound labels) (statement context bound' labels) s
  ifStatement : ∀ {base rank s}, Ready base rank bound s 1 → ∀ labels,
    Paced base rank 1 3 (ifStatement context bound labels)
      (ifStatement context bound' labels) s
  whileStatement : ∀ {base rank s}, Ready base rank bound s 1 → ∀ labels,
    Paced base rank 1 3 (whileStatement context bound labels)
      (whileStatement context bound' labels) s

/-- The next round of the loop follows a statement, which has used up a token. -/
theorem paced_statements (ih : StatementsPaced context bound bound')
    (hready : Ready base rank (bound + 1) s 3) (labels : Labels) :
    Paced base rank 3 0 (statements context (bound + 1) labels)
      (statements context (bound' + 1) labels) s := by
  have hbegun := hready.begun
  rw [statements, statements]
  refine paced_entering hready.room (Nat.succ_pos _) (by decide : 2 < 3) ?_
  refine paced_leaf_bind leaf_atBlockEnd fun {atEnd s₁} hmoves => ?_
  cases atEnd with
  | true => exact paced_leaf (leaf_pure _) (Nat.zero_le _)
  | false =>
    have hlower : Ready s.used 2 bound s₁ 2 := (hready.lower (by decide) le_rfl).mono hmoves
    have hstatement := ih.statement hlower labels
    refine hstatement.bind fun hok hmoves' => ?_
    have hlt := hstatement.used_lt (by decide) hok
    exact ih.statements (hbegun.ready (hmoves.trans hmoves') (hmoves.used.trans_lt hlt) le_rfl) _

theorem paced_statement (hle : bound ≤ bound') (ih : StatementsPaced context bound bound')
    (hready : Ready base rank (bound + 1) s 2) (labels : Labels) :
    Paced base rank 2 3 (statement context (bound + 1) labels)
      (statement context (bound' + 1) labels) s := by
  have hbegun := hready.begun
  have hlower : Ready s.used 1 bound s 1 := hready.lower (by decide) le_rfl
  have hpure : ∀ s', Paced s.used 1 3 3 ((pure labels)) (pure labels) s' := fun _ =>
    paced_leaf (leaf_pure _) le_rfl
  rw [statement, statement]
  refine paced_entering hready.room (Nat.succ_pos _) (by decide : 1 < 2) ?_
  refine paced_still_bind (x := s.tokens.current.kind.keyword?) (fun _ _ => rfl) rfl ?_
  cases s.tokens.current.kind.keyword? with
  | none => exact paced_leaf_of_error (leaf_unexpected _) rfl
  | some w =>
    cases w with
    | let_ =>
      exact Paced.bind (m := 3) ((paced_letStatement hle hbegun).mono (by decide) (by decide))
        fun _ _ => hpure _
    | if_ => exact ih.ifStatement hlower labels
    | while_ => exact ih.whileStatement hlower labels
    | do_ =>
      exact Paced.bind (m := 3) ((paced_doStatement hle hbegun).mono (by decide) (by decide))
        fun _ _ => hpure _
    | return_ =>
      exact Paced.bind (m := 3) ((paced_returnStatement hle hbegun).mono (by decide) (by decide))
        fun _ _ => hpure _
    | _ => exact paced_leaf_of_error (leaf_unexpected _) rfl

/-- Statements in braces are paid for by the brace. -/
theorem paced_block (ih : StatementsPaced context bound bound') (hbegun : Begun base bound s)
    (labels : Labels) :
    Paced base rank n n (between .leftBrace .rightBrace (statements context bound labels))
      (braced (statements context bound' labels)) s :=
  paced_between fun hmoves hlt =>
    (ih.statements (hbegun.ready hmoves hlt le_rfl) labels).mono (by decide) (by decide)

/-- The scope and the labels of a statement, once its keyword has been consumed. -/
theorem paced_labels (mark mark' : Mark) (number : Nat) {f : String → String →
    PassOn Tracer Problem Labels} {h : String → String → Pass Labels}
    (hf : ∀ {target target' s'}, Moves s s' → Paced base rank n g (f target target')
      (h target target') s') :
    Paced base rank n g (do
        let _ ← scope context
        let target ← label context mark number
        let target' ← label context mark' number
        f target target')
      (do
        let _ ← scope context
        let target ← label context mark number
        let target' ← label context mark' number
        h target target') s :=
  paced_leaf_bind (leaf_scope context) fun hmoves =>
    paced_leaf_bind (leaf_label context mark number) fun hmoves₂ =>
      paced_leaf_bind (leaf_label context mark' number) fun hmoves₃ =>
        hf (hmoves.trans (hmoves₂.trans hmoves₃))

theorem paced_ifStatement (hle : bound ≤ bound') (ih : StatementsPaced context bound bound')
    (hready : Ready base rank (bound + 1) s 1) (labels : Labels) :
    Paced base rank 1 3 (ifStatement context (bound + 1) labels)
      (ifStatement context (bound' + 1) labels) s := by
  have hbegun := hready.begun
  rw [ifStatement, ifStatement]
  refine paced_entering hready.room (Nat.succ_pos _) Nat.zero_lt_one ?_
  refine paced_step_bind (leaf_keyword _) keyword_ok fun hmoves _ => ?_
  refine paced_labels .ifFalse .ifEnd _ fun hmoves₁ => ?_
  have hbegun₁ := hbegun.mono (hmoves.trans hmoves₁)
  refine (paced_condition hle hbegun₁ _).bind fun _ hmoves₂ => ?_
  have hbegun₂ := hbegun₁.mono hmoves₂
  refine (paced_block ih hbegun₂ _).bind fun _ hmoves₃ => ?_
  refine paced_accept_bind (by simp) (by simp) (fun hmoves₄ _ => ?_) ?_
  · refine paced_leaf_bind (leaf_writeAll _) fun hmoves₅ => ?_
    have hbegun₅ := hbegun₂.mono (hmoves₃.trans (hmoves₄.trans hmoves₅))
    refine (paced_block ih hbegun₅ _).bind fun _ _ => ?_
    exact paced_leaf ((leaf_write _).bind fun _ => leaf_pure _) (by decide)
  · exact paced_leaf ((leaf_write _).bind fun _ => leaf_pure _) (by decide)

theorem paced_whileStatement (hle : bound ≤ bound') (ih : StatementsPaced context bound bound')
    (hready : Ready base rank (bound + 1) s 1) (labels : Labels) :
    Paced base rank 1 3 (whileStatement context (bound + 1) labels)
      (whileStatement context (bound' + 1) labels) s := by
  have hbegun := hready.begun
  rw [whileStatement, whileStatement]
  refine paced_entering hready.room (Nat.succ_pos _) Nat.zero_lt_one ?_
  refine paced_step_bind (leaf_keyword _) keyword_ok fun hmoves _ => ?_
  refine paced_labels .whileExp .whileEnd _ fun hmoves₁ => ?_
  refine paced_leaf_bind (leaf_write _) fun hmoves₂ => ?_
  have hbegun₂ := hbegun.mono (hmoves.trans (hmoves₁.trans hmoves₂))
  refine (paced_condition hle hbegun₂ _).bind fun _ hmoves₃ => ?_
  refine (paced_block ih (hbegun₂.mono hmoves₃) _).bind fun _ _ => ?_
  exact paced_leaf ((leaf_writeAll _).bind fun _ => leaf_pure _) (by decide)

theorem statementsPaced (context : Context) (hle : bound ≤ bound') :
    StatementsPaced context bound bound' := by
  induction bound generalizing bound' with
  | zero =>
    exact ⟨fun h => absurd h not_ready_zero, fun h => absurd h not_ready_zero,
      fun h => absurd h not_ready_zero, fun h => absurd h not_ready_zero⟩
  | succ bound ih =>
    obtain ⟨bound', rfl⟩ := Nat.exists_eq_add_of_lt hle
    have hle := Nat.le_add_right bound bound'
    exact ⟨paced_statements (ih hle), paced_statement hle (ih hle),
      paced_ifStatement hle (ih hle), paced_whileStatement hle (ih hle)⟩

end Statement

/-! ## Classes -/

section Class

variable {options : Options}

theorem paced_declaredNames (type : String) (kind : VariableKind) (hle : bound ≤ bound')
    (context : Context) (hready : Ready base rank bound s 1) :
    Paced base rank 1 0 (declaredNames options type kind bound context)
      (declaredNames options type kind bound' context) s := by
  induction bound generalizing bound' context base rank s with
  | zero => exact absurd hready not_ready_zero
  | succ bound ih =>
    obtain ⟨bound', rfl⟩ := Nat.exists_eq_add_of_lt hle
    have hbegun := hready.begun
    refine paced_entering hready.room (Nat.succ_pos _) Nat.zero_lt_one ?_
    refine paced_leaf_bind (leaf_declaredName _ _ _ _) fun hmoves => ?_
    refine paced_accept_bind (by simp) (by simp) (fun hmoves' hlt => ?_)
      (paced_leaf (leaf_pure _) le_rfl)
    exact (ih (Nat.le_add_right _ _) _ ((hbegun.mono hmoves).ready hmoves' hlt (by decide))).mono
      (by decide) (by decide)

/-- A declaration comes after a keyword, which pays for it and for one entry more. -/
theorem paced_declaration (kind : VariableKind) (hle : bound ≤ bound') (context : Context)
    (hready : Ready base rank bound s 1) :
    Paced base rank 5 1 (declaration options kind bound context)
      (declaration options kind bound' context) s := by
  refine paced_leaf_bind leaf_typeName fun hmoves => ?_
  refine Paced.bind (m := 1) ((paced_declaredNames _ kind hle context
    (hready.mono hmoves)).mono (by decide) (by decide)) fun _ _ => ?_
  exact paced_leaf_bind (leaf_punctuation _) fun _ =>
    paced_leaf (leaf_pure _) le_rfl

theorem paced_classVariables (hle : bound ≤ bound') (context : Context)
    (hready : Ready base rank bound s 1) :
    Paced base rank 1 0 (classVariables options bound context)
      (classVariables options bound' context) s := by
  induction bound generalizing bound' context base rank s with
  | zero => exact absurd hready not_ready_zero
  | succ bound ih =>
    obtain ⟨bound', rfl⟩ := Nat.exists_eq_add_of_lt hle
    have hle := Nat.le_add_right bound bound'
    have hbegun := hready.begun
    rw [classVariables, classVariables]
    refine paced_entering hready.room (Nat.succ_pos _) Nat.zero_lt_one ?_
    refine paced_still_bind (x := s.tokens.current.kind.keyword?) (fun _ _ => rfl) rfl ?_
    cases hkind : s.tokens.current.kind.keyword?.bind classVariable? with
    | none => exact paced_leaf (leaf_pure _) le_rfl
    | some kind =>
      obtain ⟨w, hw, -⟩ := Option.bind_eq_some_iff.mp hkind
      refine paced_next_bind (TokenKind.ne_eof_of_keyword? hw) fun hmoves hlt => ?_
      have hlater : Ready s.used 0 bound _ 1 := hbegun.ready hmoves hlt (by decide)
      exact (paced_declaration kind hle context hlater).bind fun _ hmoves' =>
        ih hle _ (hlater.mono hmoves')

theorem paced_localVariables (hle : bound ≤ bound') (context : Context)
    (hready : Ready base rank bound s 1) :
    Paced base rank 1 0 (localVariables options bound context)
      (localVariables options bound' context) s := by
  induction bound generalizing bound' context base rank s with
  | zero => exact absurd hready not_ready_zero
  | succ bound ih =>
    obtain ⟨bound', rfl⟩ := Nat.exists_eq_add_of_lt hle
    have hle := Nat.le_add_right bound bound'
    have hbegun := hready.begun
    refine paced_entering hready.room (Nat.succ_pos _) Nat.zero_lt_one ?_
    refine paced_accept_bind (by simp) (by simp) (fun hmoves hlt => ?_)
      (paced_leaf (leaf_pure _) le_rfl)
    have hlater : Ready s.used 0 bound _ 1 := hbegun.ready hmoves hlt (by decide)
    exact (paced_declaration .local_ hle context hlater).bind fun _ hmoves' =>
      ih hle _ (hlater.mono hmoves')

theorem paced_parameters (hle : bound ≤ bound') (context : Context)
    (hready : Ready base rank bound s 1) :
    Paced base rank 1 0 (parameters options bound context)
      (parameters options bound' context) s := by
  induction bound generalizing bound' context base rank s with
  | zero => exact absurd hready not_ready_zero
  | succ bound ih =>
    obtain ⟨bound', rfl⟩ := Nat.exists_eq_add_of_lt hle
    have hbegun := hready.begun
    refine paced_entering hready.room (Nat.succ_pos _) Nat.zero_lt_one ?_
    refine paced_leaf_bind leaf_typeName fun hmoves => ?_
    refine paced_leaf_bind (leaf_declaredName _ _ _ _) fun hmoves₂ => ?_
    refine paced_accept_bind (by simp) (by simp) (fun hmoves₃ hlt => ?_)
      (paced_leaf (leaf_pure _) le_rfl)
    exact (ih (Nat.le_add_right _ _) _
      ((hbegun.mono (hmoves.trans hmoves₂)).ready hmoves₃ hlt (by decide))).mono
      (by decide) (by decide)

theorem paced_parameterList (hle : bound ≤ bound') (context : Context)
    (hready : Ready base rank bound s 1) :
    Paced base rank 1 0 (parameterList options bound context)
      (parameterList options bound' context) s := by
  refine paced_still_bind (x := s.tokens.current.kind.symbol?) (fun _ _ => rfl) rfl ?_
  by_cases hy : s.tokens.current.kind.symbol? = some .rightParen
  · rw [if_pos hy, if_pos hy]
    exact paced_leaf (leaf_pure _) (Nat.zero_le _)
  · rw [if_neg hy, if_neg hy]
    exact paced_parameters hle context hready

theorem paced_body (hle : bound ≤ bound') (context : Context)
    (hready : Ready base rank bound s 3) :
    Paced base rank 3 0 (body options context bound) (body options context bound') s := by
  refine paced_leaf_bind (leaf_scope _) fun hmoves => ?_
  refine paced_leaf_bind (leaf_write _) fun hmoves₂ => ?_
  refine paced_leaf_bind (leaf_showTable _ _ _) fun hmoves₃ => ?_
  refine paced_leaf_bind (leaf_writeAll _) fun hmoves₄ => ?_
  have hlater := hready.mono (hmoves.trans (hmoves₂.trans (hmoves₃.trans hmoves₄)))
  exact ((statementsPaced context hle).statements hlater _).bind fun _ _ =>
    paced_leaf (leaf_pure _) le_rfl

/-- The part of a subroutine after its type. -/
theorem paced_subroutine_rest (context : Context) (kind : SubroutineKind)
    (hle : bound ≤ bound') (hbegun : Begun base bound s) :
    Paced base rank n n (do
        let name ← expectName
        let entered ← enter context.className name kind
        let context ← parenthesized (parameterList options bound (context.inside entered))
        braced do
          let context ← localVariables options bound context
          body options context bound)
      (do
        let name ← expectName
        let entered ← enter context.className name kind
        let context ← parenthesized (parameterList options bound' (context.inside entered))
        braced do
          let context ← localVariables options bound' context
          body options context bound') s := by
  refine paced_leaf_bind leaf_expectName fun hmoves => ?_
  refine paced_leaf_bind (leaf_enter _ _ _) fun hmoves₂ => ?_
  have hbegun₂ := hbegun.mono (hmoves.trans hmoves₂)
  refine Paced.bind (m := n) (paced_between fun hmoves₃ hlt => ?_) fun _ hmoves₃ =>
    paced_between fun hmoves₄ hlt => ?_
  · exact (paced_parameterList hle _ (hbegun₂.ready hmoves₃ hlt (by decide))).mono
      (by decide) (by decide)
  · have hbegun₃ := hbegun₂.mono hmoves₃
    refine Paced.bind (m := 3) ((paced_localVariables hle _
      (hbegun₃.ready hmoves₄ hlt (by decide))).mono (by decide) (by decide)) fun _ hmoves₅ => ?_
    exact paced_body hle _ ((hbegun₃.ready hmoves₄ hlt le_rfl).mono hmoves₅)

theorem paced_subroutine (context : Context) (kind : SubroutineKind) (hle : bound ≤ bound')
    (hbegun : Begun base bound s) :
    Paced base rank n n (subroutine options context bound kind)
      (subroutine options context bound' kind) s := by
  refine paced_leaf_bind (leaf_accept (by simp) (by simp)) fun {void _} hmoves => ?_
  cases void with
  | true => exact paced_subroutine_rest context kind hle (hbegun.mono hmoves)
  | false =>
    exact paced_leaf_bind leaf_typeName fun hmoves' =>
      paced_subroutine_rest context kind hle (hbegun.mono (hmoves.trans hmoves'))

theorem paced_subroutines (context : Context) (hle : bound ≤ bound')
    (hready : Ready base rank bound s 1) :
    Paced base rank 1 0 (subroutines options context bound)
      (subroutines options context bound') s := by
  induction bound generalizing bound' base rank s with
  | zero => exact absurd hready not_ready_zero
  | succ bound ih =>
    obtain ⟨bound', rfl⟩ := Nat.exists_eq_add_of_lt hle
    have hle := Nat.le_add_right bound bound'
    have hbegun := hready.begun
    rw [subroutines, subroutines]
    refine paced_entering hready.room (Nat.succ_pos _) Nat.zero_lt_one ?_
    refine paced_still_bind (x := s.tokens.current.kind.keyword?) (fun _ _ => rfl) rfl ?_
    cases hkind : s.tokens.current.kind.keyword?.bind subroutineKind? with
    | none => exact paced_leaf (leaf_pure _) le_rfl
    | some kind =>
      obtain ⟨w, hw, -⟩ := Option.bind_eq_some_iff.mp hkind
      refine paced_next_bind (TokenKind.ne_eof_of_keyword? hw) fun hmoves hlt => ?_
      have hlater : Ready s.used 0 bound _ 1 := hbegun.ready hmoves hlt (by decide)
      refine (paced_subroutine context kind hle (hbegun.mono hmoves)).bind fun _ hmoves' => ?_
      exact (ih hle (hlater.mono hmoves')).mono (by decide) (by decide)

/-- **Pace.** A class is compiled in an orderly way, with at most five entries for each token. -/
theorem paced_compilationUnit (options : Options) (hle : bound ≤ bound')
    (hbegun : Begun 0 bound s) :
    Paced 0 0 0 0 (compilationUnit options bound) (compilationUnit options bound') s := by
  refine Paced.bind (m := 0) ?_ fun _ _ => paced_leaf leaf_finish le_rfl
  refine paced_leaf_bind (leaf_keyword _) fun hmoves => ?_
  refine paced_leaf_bind leaf_expectName fun {className _} hmoves₂ => ?_
  refine paced_leaf_bind (leaf_note _) fun hmoves₃ => ?_
  have hbegun₃ := hbegun.mono (hmoves.trans (hmoves₂.trans hmoves₃))
  refine paced_between fun hmoves₄ hlt => ?_
  have hready : Ready 0 0 bound _ 1 := hbegun₃.ready hmoves₄ hlt (by decide)
  refine Paced.bind (m := 4) ((paced_classVariables hle _ hready).mono (by decide) (by decide))
    fun _ hmoves₅ => ?_
  refine paced_leaf_bind (leaf_showTable _ _ _) fun hmoves₆ => ?_
  exact (paced_subroutines _ hle (hready.mono (hmoves₅.trans hmoves₆))).mono
    (by decide) (by decide)

/-- A bound of four for each token is as good as any larger one. -/
theorem compilationUnit_eq_of_le (options : Options) (hle : bound ≤ bound')
    (hbound : 4 * s.left ≤ bound + 1) :
    (compilationUnit options bound : Pass Unit) s = compilationUnit options bound' s := by
  have hbegun : Begun 0 bound s := ⟨Nat.zero_le _, hbound⟩
  obtain ⟨new, hnew⟩ := paced_compilationUnit options le_rfl hbegun
  obtain ⟨new', hnew'⟩ := paced_compilationUnit options hle hbegun
  exact tracedResult_injective ((hnew.traced [] []).symm.trans (hnew'.traced [] []))

/-- The bound of a compilation is large enough. -/
theorem compilationUnit_eq_of_passBound (options : Options) {a : TokenStream}
    (hbound : passBound a ≤ bound) : (compilationUnit options bound : Pass Unit) ⟨a, #[]⟩ =
      compilationUnit options (passBound a) ⟨a, #[]⟩ := by
  refine (compilationUnit_eq_of_le options hbound ?_).symm
  have hleft : State.left ⟨a, #[]⟩ ≤ a.size := a.length_supply_le_size
  unfold passBound
  omega

end Class

end Pass

end Jack
