import Jack.Proofs.Pass.Lockstep

/-!
# The functions of a pass in lockstep

Every function of a pass is related to itself, in the order of the grammar and up to
`lockstep_compilationUnit`. This is the one walk through the grammar that says what all of them have
in common: which tokens they take, which lines they may write, what they complain about, and that
options and spellings have no other part in what they do.

A function that declares variables or compiles statements needs a context with room for them
(`Roomy`). The contexts that a pass comes to have it, so no pass ever complains that there is none.
-/

namespace Jack

namespace Pass

variable {δ ε δ' ε' : Type} [Device δ ε] [Device δ' ε'] {c : Contract δ ε δ' ε'} {α : Type}
  {v w : View c} {P : α → Prop} {Q : α → α → View c → Prop}

/-! ## Expressions -/

section Functions

variable (htakes : ∀ k : TokenKind, k.Plain → c.takes k)

include htakes

theorem lockstep_punctuation (y : Symbol) :
    Lockstep c v (punctuation y) (punctuation y) Agrees :=
  lockstep_expect (by simp) (by simp) (htakes _ rfl)

theorem lockstep_between {p : PassOn δ ε α} {p' : PassOn δ' ε' α} {opening closing : Symbol}
    (h : ∀ w, Lockstep c w p p' (Gives P)) :
    Lockstep c v (between opening closing p) (between opening closing p') (Gives P) :=
  (lockstep_punctuation htakes _).then fun _ w _ => (h w).then fun _ _ hx =>
    (lockstep_punctuation htakes _).then fun _ _ _ => lockstep_pure hx

/-- A name that has been taken bears the line of the token that was ahead. -/
theorem lockstep_expectName_bind {f : String → PassOn δ ε α} {f' : String → PassOn δ' ε' α}
    (h : ∀ name (w : View c), (c.genuine → IsPath name) →
      w.last = some ⟨.identifier name, v.ahead.line⟩ →
      w.last' = some ⟨.identifier name, v.ahead'.line⟩ → Lockstep c w (f name) (f' name) Q) :
    Lockstep c v (expectName >>= f) (expectName >>= f') Q := by
  refine .bind (R := fun name name' w => name' = name ∧ (c.genuine → IsPath name) ∧
    w.last = some ⟨.identifier name, v.ahead.line⟩ ∧
    w.last' = some ⟨.identifier name, v.ahead'.line⟩) (lockstep_current_bind ?_) ?_
  · obtain heq | ⟨value, digits, digits', heq', heq⟩ := v.kinds
    · rw [heq]
      split
      · rename_i name hname
        refine lockstep_next_bind (by simp [hname]) (by rw [hname]; exact htakes _ rfl) ?_
        refine fun w hlast hlast' => .pure (fun _ => rfl) ⟨rfl, fun hg => ?_, ?_, ?_⟩
        · have hwell := (v.like.wellFormed hg).resolve_left (by simp [hname])
          exact isPath_of_wellFormed (hname ▸ hwell)
        · rw [hlast, ← hname]
        · rw [hlast', ← hname, ← heq]
      · exact lockstep_unexpected _
    · rw [heq, heq']
      exact lockstep_unexpected _
  · rintro _ name w ⟨rfl, hname, hlast, hlast'⟩
    exact h name w hname hlast hlast'

theorem lockstep_expectName :
    Lockstep c v expectName expectName (Gives fun name => c.genuine → IsPath name) := by
  have h : Lockstep c v (expectName >>= pure) (expectName >>= pure)
      (Gives fun name => c.genuine → IsPath name) :=
    lockstep_expectName_bind htakes fun _ _ hname _ _ => lockstep_pure hname
  simpa using h

omit htakes in
theorem lockstep_variableNamed_bind {context : Context} {name : String} {l l' : Nat}
    {f : Variable → PassOn δ ε α} {f' : Variable → PassOn δ' ε' α}
    (hlast : v.last = some ⟨.identifier name, l⟩) (hlast' : v.last' = some ⟨.identifier name, l'⟩)
    (hline : c.same → l' = l) (h : ∀ x, Lockstep c v (f x) (f' x) Q) :
    Lockstep c v (variableNamed context name l >>= f) (variableNamed context name l' >>= f') Q := by
  refine .bind (R := fun x x' w => x' = x ∧ w = v) ?_ (by rintro _ x _ ⟨rfl, rfl⟩; exact h x)
  unfold variableNamed
  cases context.resolve? name with
  | some x => exact .pure (fun _ => rfl) ⟨rfl, rfl⟩
  | none => exact .fail (.unresolved hlast) (.unresolved hlast') rfl fun hs => ⟨hline hs, rfl⟩

omit htakes in
theorem lockstep_stringConstant {characters : String} {l l' : Nat}
    (hlast : v.last = some ⟨.string characters, l⟩)
    (hlast' : v.last' = some ⟨.string characters, l'⟩) :
    Lockstep c v (stringConstant characters) (stringConstant characters) Agrees := by
  unfold stringConstant
  split
  · exact lockstep_writeAll (fun _ => legible_stringCode _) ⟨rfl, trivial⟩
  · rename_i hlong
    have hlong := Nat.lt_of_not_le hlong
    exact lockstep_complain (.stringTooLong hlast hlong) (.stringTooLong hlast' hlong) rfl
      fun _ => rfl

variable {context : Context} (hcontext : c.genuine → context.Legible)

include hcontext

theorem lockstep_callee {name : String} {l l' : Nat} (hname : c.genuine → IsPath name)
    (hline : c.same → l' = l) :
    Lockstep c v (callee context name l) (callee context name l')
      (Gives fun r => c.genuine → IsPath r.1) := by
  have hdot : IsPath "." := by decide
  refine lockstep_symbol?_bind ?_
  generalize hy : v.ahead.kind.symbol? = y
  split
  · refine lockstep_write_bind (fun _ => trivial) (lockstep_pure fun hg => ?_)
    exact ((hcontext hg).className.append hdot).append (hname hg)
  · have hdotAhead := TokenKind.symbol?_eq_some.mp hy
    refine lockstep_next_bind (by simp [hdotAhead]) (by rw [hdotAhead]; exact htakes _ rfl) ?_
    refine fun w _ _ => lockstep_expectName_bind htakes fun member w hmember _ _ => ?_
    cases hresolve : context.resolve? name with
    | some x =>
      refine lockstep_write_bind (fun _ => trivial) (lockstep_pure fun hg => ?_)
      exact (((hcontext hg).type hresolve).append hdot).append (hmember hg)
    | none =>
      refine lockstep_note_bind (fun hs => by rw [hline hs]) (lockstep_pure fun hg => ?_)
      exact ((hname hg).append hdot).append (hmember hg)
  · exact lockstep_unexpected _

theorem lockstep_call {arguments : PassOn δ ε Nat} {arguments' : PassOn δ' ε' Nat} {name : String}
    {l l' : Nat} (hname : c.genuine → IsPath name) (hline : c.same → l' = l)
    (h : ∀ w, Lockstep c w arguments arguments' Agrees) :
    Lockstep c v (call context arguments name l) (call context arguments' name l') Agrees := by
  refine (lockstep_callee htakes hcontext hname hline).then fun ⟨routine, implicit⟩ w hroutine => ?_
  refine (lockstep_punctuation htakes _).then fun _ w _ => (h w).then fun count w _ => ?_
  have hrest : ∀ w : View c, Lockstep c w
      (do punctuation .rightParen; write (.call routine (count + implicit)))
      (do punctuation .rightParen; write (.call routine (count + implicit))) Agrees :=
    fun w => (lockstep_punctuation htakes _).then fun _ _ _ => lockstep_write hroutine
  by_cases hle : count + implicit ≤ maxArguments
  · simp only [hle]
    exact hrest w
  · simp only [hle]
    exact Lockstep.then (P := fun _ => True) lockstep_tooManyArguments fun _ w _ => hrest w

variable (henters : c.enters)

/-- All functions on expressions, for one bound. -/
structure ExpressionsLockstep (c : Contract δ ε δ' ε') (context : Context) (bound : Nat) :
    Prop where
  term : ∀ v : View c, Lockstep c v (term context bound) (term context bound) Agrees
  expression : ∀ v : View c,
    Lockstep c v (expression context bound) (expression context bound) Agrees
  operations : ∀ v : View c,
    Lockstep c v (operations context bound) (operations context bound) Agrees
  arguments : ∀ v : View c,
    Lockstep c v (arguments context bound) (arguments context bound) Agrees
  moreArguments : ∀ (v : View c) (count : Nat),
    Lockstep c v (moreArguments context bound count) (moreArguments context bound count) Agrees

variable {bound : Nat}

include henters

/-- A term that starts with a name, which has been consumed. -/
theorem lockstep_named (ih : ExpressionsLockstep c context bound) {name : String} {l l' : Nat}
    (hname : c.genuine → IsPath name) (hlast : v.last = some ⟨.identifier name, l⟩)
    (hlast' : v.last' = some ⟨.identifier name, l'⟩) (hline : c.same → l' = l) :
    Lockstep c v
      (symbol? >>= fun y => match y with
        | some .leftBracket => do
          let v ← variableNamed context name l
          let _ ← next
          write v.push
          expression context bound
          punctuation .rightBracket
          writeAll [.operate .add, .popTarget, .pushIndirect]
        | some .leftParen | some .dot =>
          entering .call bound (call context (arguments context bound) name l)
        | _ => do write (← variableNamed context name l).push)
      (symbol? >>= fun y => match y with
        | some .leftBracket => do
          let v ← variableNamed context name l'
          let _ ← next
          write v.push
          expression context bound
          punctuation .rightBracket
          writeAll [.operate .add, .popTarget, .pushIndirect]
        | some .leftParen | some .dot =>
          entering .call bound (call context (arguments context bound) name l')
        | _ => do write (← variableNamed context name l').push) Agrees := by
  refine lockstep_symbol?_bind ?_
  generalize hy : v.ahead.kind.symbol? = y
  split
  · have hbracket := TokenKind.symbol?_eq_some.mp hy
    refine lockstep_variableNamed_bind hlast hlast' hline fun x => ?_
    refine lockstep_next_bind (by simp [hbracket]) (by rw [hbracket]; exact htakes _ rfl) ?_
    refine fun w _ _ => lockstep_write_bind (fun _ => trivial) ?_
    refine (ih.expression w).then fun _ w _ => (lockstep_punctuation htakes _).then fun _ w _ => ?_
    exact lockstep_writeAll (by simp [Instruction.Legible, Instruction.popTarget,
      Instruction.pushIndirect]) ⟨rfl, trivial⟩
  · exact lockstep_entering henters (lockstep_call htakes hcontext hname hline ih.arguments) _ _
  · exact lockstep_entering henters (lockstep_call htakes hcontext hname hline ih.arguments) _ _
  · exact lockstep_variableNamed_bind hlast hlast' hline fun x => lockstep_write fun _ => trivial

theorem lockstep_term (ih : ExpressionsLockstep c context bound) (v : View c) :
    Lockstep c v (term context (bound + 1)) (term context (bound + 1)) Agrees := by
  unfold term
  refine lockstep_entering henters (lockstep_current_bind ?_) _ _
  obtain heq | ⟨value, digits, digits', heq', heq⟩ := v.kinds
  · -- both tokens are of the kind `k`
    rw [heq]
    generalize hk : v.ahead.kind = k
    have hnext : ∀ {f : Token → PassOn δ ε Unit} {f'}, k ≠ .eof → k.Plain →
        (∀ w : View c, w.last = some v.ahead → w.last' = some v.ahead' →
          Lockstep c w (f v.ahead) (f' v.ahead') Agrees) →
        Lockstep c v (next >>= f) (next >>= f') Agrees := fun hne hplain =>
      lockstep_next_bind (hk ▸ hne) (hk ▸ htakes _ hplain)
    have hlast : v.ahead = ⟨k, v.ahead.line⟩ := by rw [← hk]
    have hlast' : v.ahead' = ⟨k, v.ahead'.line⟩ := by rw [← hk, ← heq]
    cases k with
    | integer value digits =>
      exact hnext (by simp) rfl fun _ _ _ => lockstep_write fun _ => trivial
    | string characters =>
      exact hnext (by simp) rfl fun w hw hw' =>
        lockstep_stringConstant (hw.trans (congrArg some hlast)) (hw'.trans (congrArg some hlast'))
    | keyword w =>
      cases hcode : keywordConstant? w with
      | some code =>
        simp only [hcode]
        refine lockstep_writeAll_bind (fun _ => legible_keywordConstant hcode) ?_
        refine hnext (by simp) ?_ fun _ _ _ => lockstep_pure trivial
        cases w <;> first | rfl | cases hcode
      | none =>
        simp only [hcode]
        exact lockstep_unexpected _
    | identifier name =>
      refine hnext (by simp) rfl fun w hw hw' => ?_
      refine lockstep_named htakes hcontext henters ih (fun hg => ?_)
        (hw.trans (congrArg some hlast)) (hw'.trans (congrArg some hlast')) v.line_of_same
      exact isPath_of_wellFormed (hk ▸ (v.like.wellFormed hg).resolve_left (by simp [hk]))
    | symbol y =>
      cases y with
      | leftParen => exact lockstep_between htakes ih.expression
      | minus | tilde =>
        exact hnext (by simp) rfl fun w _ _ =>
          (ih.term w).then fun _ _ _ => lockstep_write fun _ => trivial
      | _ => exact lockstep_unexpected _
    | eof => exact lockstep_unexpected _
  · rw [heq, heq']
    exact lockstep_next_bind (by simp [heq]) (by rw [heq]; exact htakes _ rfl) fun _ _ _ =>
      lockstep_write fun _ => trivial

omit hcontext in
theorem lockstep_operations (ih : ExpressionsLockstep c context bound) (v : View c) :
    Lockstep c v (operations context (bound + 1)) (operations context (bound + 1)) Agrees := by
  unfold operations
  refine lockstep_entering henters (lockstep_symbol?_bind ?_) _ _
  cases hop : v.ahead.kind.symbol?.bind binaryOperator? with
  | none => exact lockstep_pure trivial
  | some operator =>
    obtain ⟨y, hy, hoperator⟩ := Option.bind_eq_some_iff.mp hop
    have hsymbol := TokenKind.symbol?_eq_some.mp hy
    refine lockstep_next_bind (by simp [hsymbol]) (by rw [hsymbol]; exact htakes _ rfl) ?_
    refine fun w _ _ => (ih.term w).then fun _ w _ => ?_
    exact lockstep_write_bind (fun _ => legible_binaryOperator hoperator) (ih.operations w)

omit hcontext htakes in
theorem lockstep_arguments (ih : ExpressionsLockstep c context bound) (v : View c) :
    Lockstep c v (arguments context (bound + 1)) (arguments context (bound + 1)) Agrees := by
  unfold arguments
  refine lockstep_entering henters (lockstep_symbol?_bind ?_) _ _
  split
  · exact lockstep_pure trivial
  · exact (ih.expression v).then fun _ w _ => ih.moreArguments w 1

omit hcontext in
theorem lockstep_moreArguments (ih : ExpressionsLockstep c context bound) (v : View c)
    (count : Nat) : Lockstep c v (moreArguments context (bound + 1) count)
      (moreArguments context (bound + 1) count) Agrees := by
  unfold moreArguments
  refine lockstep_entering henters ?_ _ _
  refine lockstep_accept_bind (by simp) (by simp) (htakes _ rfl) (fun w => ?_)
    (lockstep_pure trivial)
  refine (ih.expression w).then fun _ w _ => ?_
  by_cases hle : count + 1 ≤ maxArguments
  · simp only [hle]
    exact ih.moreArguments w _
  · simp only [hle]
    exact Lockstep.then (P := fun _ => True) lockstep_tooManyArguments fun _ w _ =>
      ih.moreArguments w _

theorem expressionsLockstep (bound : Nat) : ExpressionsLockstep c context bound := by
  induction bound with
  | zero =>
    refine ⟨fun v => ?_, fun v => ?_, fun v => ?_, fun v => ?_, fun v count => ?_⟩
    · exact lockstep_entering henters (lockstep_unexpected _) _ _
    · exact lockstep_entering henters (lockstep_unexpected _) _ _
    · exact lockstep_entering henters (lockstep_pure trivial) _ _
    · exact lockstep_entering henters (lockstep_unexpected _) _ _
    · exact lockstep_entering henters (lockstep_pure trivial) _ _
  | succ bound ih =>
    refine ⟨lockstep_term htakes hcontext henters ih, fun v => ?_,
      lockstep_operations htakes henters ih, lockstep_arguments henters ih,
      lockstep_moreArguments htakes henters ih⟩
    exact lockstep_entering henters ((ih.term v).then fun _ w _ => ih.operations w) _ _

/-! ## Statements -/

theorem lockstep_condition {target : String} (htarget : c.genuine → IsPath target) :
    Lockstep c v (condition context bound target) (condition context bound target) Agrees := by
  have ih := expressionsLockstep htakes hcontext henters bound
  refine (lockstep_between htakes ih.expression).then fun _ w _ => ?_
  refine lockstep_writeAll ?_ ⟨rfl, trivial⟩
  simpa [Instruction.Legible] using htarget

theorem lockstep_letStatement :
    Lockstep c v (letStatement context bound) (letStatement context bound) Agrees := by
  have ih := expressionsLockstep htakes hcontext henters bound
  have hend : ∀ w : View c, Lockstep c w (punctuation .semicolon) (punctuation .semicolon) Agrees :=
    fun w => lockstep_punctuation htakes _
  refine (lockstep_keyword .let_ (htakes _ rfl)).then fun _ w _ => lockstep_line_bind ?_
  refine lockstep_expectName_bind htakes fun name u _ hlast hlast' => ?_
  refine lockstep_variableNamed_bind hlast hlast' w.line_of_same fun x => ?_
  refine lockstep_accept_bind (by simp) (by simp) (htakes _ rfl) (fun w => ?_) ?_
  · refine lockstep_write_bind (fun _ => trivial) ((ih.expression w).then fun _ w _ => ?_)
    refine (lockstep_punctuation htakes _).then fun _ w _ => ?_
    refine lockstep_write_bind (fun _ => trivial) ?_
    refine (lockstep_punctuation htakes _).then fun _ w _ => (ih.expression w).then fun _ w _ => ?_
    exact lockstep_writeAll_bind (by simp [Instruction.Legible, Instruction.popScratch,
      Instruction.popTarget, Instruction.pushScratch, Instruction.popIndirect]) (hend w)
  · refine (lockstep_punctuation htakes _).then fun _ w _ => (ih.expression w).then fun _ w _ => ?_
    exact lockstep_write_bind (fun _ => trivial) (hend w)

theorem lockstep_doStatement :
    Lockstep c v (doStatement context bound) (doStatement context bound) Agrees := by
  have ih := expressionsLockstep htakes hcontext henters bound
  refine (lockstep_keyword .do_ (htakes _ rfl)).then fun _ w _ => lockstep_line_bind ?_
  refine lockstep_expectName_bind htakes fun name u hname _ _ => ?_
  have hcall := lockstep_call (v := u) htakes hcontext hname w.line_of_same ih.arguments
  refine (lockstep_entering henters hcall _ _).then fun _ w _ => ?_
  exact lockstep_write_bind (fun _ => trivial) (lockstep_punctuation htakes _)

theorem lockstep_returnStatement :
    Lockstep c v (returnStatement context bound) (returnStatement context bound) Agrees := by
  have ih := expressionsLockstep htakes hcontext henters bound
  have hend : ∀ w : View c, Lockstep c w (do punctuation .semicolon; write .return_)
      (do punctuation .semicolon; write .return_) Agrees := fun w =>
    (lockstep_punctuation htakes _).then fun _ _ _ => lockstep_write fun _ => trivial
  refine (lockstep_keyword .return_ (htakes _ rfl)).then fun _ w _ => lockstep_symbol?_bind ?_
  split
  · exact lockstep_write_bind (fun _ => trivial) (hend w)
  · exact (ih.expression w).then fun _ w _ => hend w

omit henters hcontext htakes in
/-- All functions on statements, for one bound. -/
structure StatementsLockstep (c : Contract δ ε δ' ε') (context : Context) (bound : Nat) :
    Prop where
  statements : ∀ (v : View c) (labels : Labels),
    Lockstep c v (statements context bound labels) (statements context bound labels) Agrees
  statement : ∀ (v : View c) (labels : Labels),
    Lockstep c v (statement context bound labels) (statement context bound labels) Agrees
  ifStatement : ∀ (v : View c) (labels : Labels),
    Lockstep c v (ifStatement context bound labels) (ifStatement context bound labels) Agrees
  whileStatement : ∀ (v : View c) (labels : Labels),
    Lockstep c v (whileStatement context bound labels) (whileStatement context bound labels) Agrees

omit hcontext htakes in
theorem lockstep_statements (ih : StatementsLockstep c context bound) (v : View c)
    (labels : Labels) : Lockstep c v (statements context (bound + 1) labels)
      (statements context (bound + 1) labels) Agrees := by
  unfold statements
  refine lockstep_entering henters (lockstep_atBlockEnd.then fun ended w _ => ?_) _ _
  cases ended with
  | true => exact lockstep_pure trivial
  | false => exact (ih.statement w labels).then fun labels w _ => ih.statements w labels

theorem lockstep_statement (ih : StatementsLockstep c context bound) (v : View c)
    (labels : Labels) : Lockstep c v (statement context (bound + 1) labels)
      (statement context (bound + 1) labels) Agrees := by
  unfold statement
  refine lockstep_entering henters (lockstep_keyword?_bind ?_) _ _
  generalize v.ahead.kind.keyword? = w
  split
  · exact (lockstep_letStatement htakes hcontext henters).then fun _ _ _ => lockstep_pure trivial
  · exact ih.ifStatement v labels
  · exact ih.whileStatement v labels
  · exact (lockstep_doStatement htakes hcontext henters).then fun _ _ _ => lockstep_pure trivial
  · exact (lockstep_returnStatement htakes hcontext henters).then fun _ _ _ => lockstep_pure trivial
  · exact lockstep_unexpected _

variable {entered : Subroutine} (hentered : context.subroutine = some entered)

include hentered

omit htakes henters in
theorem isPath_label_of_some (mark : Mark) (number : Nat) (hg : c.genuine) :
    IsPath (Label.mk entered.name mark number).text :=
  isPath_label ((hcontext hg).subroutine _ hentered).name mark number

theorem lockstep_ifStatement (ih : StatementsLockstep c context bound) (v : View c)
    (labels : Labels) : Lockstep c v (ifStatement context (bound + 1) labels)
      (ifStatement context (bound + 1) labels) Agrees := by
  have hlabel := isPath_label_of_some hcontext hentered
  unfold ifStatement
  simp only [scope_of_some hentered, label_of_some hentered, pure_bind]
  refine lockstep_entering henters ?_ _ _
  refine (lockstep_keyword .if_ (htakes _ rfl)).then fun _ w _ => ?_
  refine (lockstep_condition htakes hcontext henters (hlabel _ _)).then fun _ w _ => ?_
  refine (lockstep_between htakes fun w => ih.statements w _).then fun labels w _ => ?_
  refine lockstep_accept_bind (by simp) (by simp) (htakes _ rfl) (fun w => ?_) ?_
  · refine lockstep_writeAll_bind (fun hg => ?_) ?_
    · simp [Instruction.Legible, hlabel _ _ hg]
    refine (lockstep_between htakes fun w => ih.statements w _).then fun labels w _ => ?_
    exact lockstep_write_bind (hlabel _ _) (lockstep_pure trivial)
  · exact lockstep_write_bind (hlabel _ _) (lockstep_pure trivial)

theorem lockstep_whileStatement (ih : StatementsLockstep c context bound) (v : View c)
    (labels : Labels) : Lockstep c v (whileStatement context (bound + 1) labels)
      (whileStatement context (bound + 1) labels) Agrees := by
  have hlabel := isPath_label_of_some hcontext hentered
  unfold whileStatement
  simp only [scope_of_some hentered, label_of_some hentered, pure_bind]
  refine lockstep_entering henters ?_ _ _
  refine (lockstep_keyword .while_ (htakes _ rfl)).then fun _ w _ => ?_
  refine lockstep_write_bind (hlabel _ _) ?_
  refine (lockstep_condition htakes hcontext henters (hlabel _ _)).then fun _ w _ => ?_
  refine (lockstep_between htakes fun w => ih.statements w _).then fun labels w _ => ?_
  refine lockstep_writeAll_bind (fun hg => ?_) (lockstep_pure trivial)
  simp [Instruction.Legible, hlabel _ _ hg]

theorem statementsLockstep (bound : Nat) : StatementsLockstep c context bound := by
  induction bound with
  | zero =>
    refine ⟨fun v labels => ?_, fun v labels => ?_, fun v labels => ?_, fun v labels => ?_⟩
    · exact lockstep_entering henters (lockstep_pure trivial) _ _
    · exact lockstep_entering henters (lockstep_unexpected _) _ _
    · exact lockstep_entering henters (lockstep_unexpected _) _ _
    · exact lockstep_entering henters (lockstep_unexpected _) _ _
  | succ bound ih =>
    exact ⟨lockstep_statements henters ih, lockstep_statement htakes hcontext henters ih,
      lockstep_ifStatement htakes hcontext henters hentered ih,
      lockstep_whileStatement htakes hcontext henters hentered ih⟩

end Functions

/-! ## Declarations -/

/-- The context has legible names and room for variables of the kind. -/
structure Roomy (c : Contract δ ε δ' ε') (kind : VariableKind) (context : Context) : Prop where
  legible : c.genuine → context.Legible
  room : kind.isClassLevel = true ∨ context.subroutine.isSome = true

section Declarations

variable (htakes : ∀ k : TokenKind, c.takes k) {context : Context} {kind : VariableKind}
  {bound : Nat}

theorem Roomy.exists_table (h : Roomy c kind context) :
    ∃ table, context.table? kind = some table := by
  unfold Context.table?
  split
  · exact ⟨_, rfl⟩
  · obtain ⟨entered, hentered⟩ := Option.isSome_iff_exists.mp (h.room.resolve_left ‹_›)
    exact ⟨entered.table, by rw [hentered]; rfl⟩

theorem Roomy.setTable (h : Roomy c kind context) {table : Table}
    (htable : c.genuine → table.Legible) : Roomy c kind (context.setTable kind table) := by
  refine ⟨fun hg => (h.legible hg).setTable (htable hg) kind, h.room.imp_right fun hsome => ?_⟩
  unfold Context.setTable
  split
  · exact hsome
  · simpa using hsome

/-- A name that is known already stops the passes that are strict. -/
theorem lockstep_declare (hcontext : Roomy c kind context) {name type : String} {l l' : Nat}
    (hname : c.genuine → IsPath name) (htype : c.genuine → IsPath type)
    (hlast : v.last = some ⟨.identifier name, l⟩) (hlast' : v.last' = some ⟨.identifier name, l'⟩)
    (hline : c.same → l' = l) :
    Lockstep c v (declare c.left context name type kind l)
      (declare c.right context name type kind l') (Gives (Roomy c kind)) := by
  obtain ⟨table, htable⟩ := hcontext.exists_table
  have hdefine : Roomy c kind (context.setTable kind (table.define name type kind)) :=
    hcontext.setTable fun hg =>
      ((hcontext.legible hg).table? htable).define (hname hg) (htype hg) kind
  have hnew : Lockstep c v
      (do note (.defined (table.fresh name type kind))
          return context.setTable kind (table.define name type kind))
      (do note (.defined (table.fresh name type kind))
          return context.setTable kind (table.define name type kind)) (Gives (Roomy c kind)) :=
    lockstep_note_bind (fun _ => rfl) (lockstep_pure hdefine)
  unfold declare
  simp only [htable]
  cases hcontains : table.contains name with
  | false => simpa using hnew
  | true =>
    have hstrict := c.strict
    cases hleft : c.left.strict <;> cases hright : c.right.strict
    · simpa using hnew
    · exact .cut hleft hright (.redeclared hlast' rfl) ⟨rfl, hdefine⟩
    · simp [hleft, hright] at hstrict
    · exact .fail (.redeclared hlast hleft) (.redeclared hlast' hright) rfl
        fun hs => ⟨hline hs, rfl⟩

include htakes

theorem lockstep_typeName :
    Lockstep c v typeName typeName (Gives fun type => c.genuine → IsPath type) := by
  have hplain : ∀ k : TokenKind, k.Plain → c.takes k := fun k _ => htakes k
  refine lockstep_current_bind ?_
  obtain heq | ⟨value, digits, digits', heq', heq⟩ := v.kinds
  · rw [heq]
    split
    · rename_i w hw
      by_cases htype : w.isType = true
      · simp only [htype]
        refine lockstep_next_bind (by simp [hw]) (htakes _) fun _ _ _ => lockstep_pure fun _ => ?_
        cases w <;> decide
      · simp only [htype]
        exact lockstep_unexpected _
    · exact lockstep_expectName hplain
    · exact lockstep_unexpected _
  · rw [heq, heq']
    exact lockstep_unexpected _

theorem lockstep_declaredName (hcontext : Roomy c kind context) {type : String}
    (htype : c.genuine → IsPath type) :
    Lockstep c v (declaredName c.left type kind context) (declaredName c.right type kind context)
      (Gives (Roomy c kind)) := by
  have hplain : ∀ k : TokenKind, k.Plain → c.takes k := fun k _ => htakes k
  refine lockstep_line_bind (lockstep_expectName_bind hplain fun name w hname hlast hlast' => ?_)
  exact lockstep_declare hcontext hname htype hlast hlast' v.line_of_same

variable (henters : c.enters)

include henters

theorem lockstep_declaredNames {type : String} (htype : c.genuine → IsPath type) (bound : Nat) :
    ∀ {context : Context} (v : View c), Roomy c kind context →
      Lockstep c v (declaredNames c.left type kind bound context)
        (declaredNames c.right type kind bound context) (Gives (Roomy c kind)) := by
  induction bound with
  | zero => exact fun _ _ => lockstep_entering henters (lockstep_unexpected _) _ _
  | succ bound ih =>
    intro context v hcontext
    refine lockstep_entering henters ?_ _ _
    refine (lockstep_declaredName htakes hcontext htype).then fun context w hcontext => ?_
    exact lockstep_accept_bind (by simp) (by simp) (htakes _) (fun w => ih w hcontext)
      (lockstep_pure hcontext)

theorem lockstep_declaration (hcontext : Roomy c kind context) :
    Lockstep c v (declaration c.left kind bound context) (declaration c.right kind bound context)
      (Gives (Roomy c kind)) := by
  refine (lockstep_typeName htakes).then fun type w htype => ?_
  refine (lockstep_declaredNames htakes henters htype bound w hcontext).then fun _ w hcontext => ?_
  exact (lockstep_punctuation (fun k _ => htakes k) _).then fun _ _ _ => lockstep_pure hcontext

theorem lockstep_classVariables (bound : Nat) : ∀ {context : Context} (v : View c),
    (c.genuine → context.Legible) →
      Lockstep c v (classVariables c.left bound context) (classVariables c.right bound context)
        (Gives fun context => c.genuine → context.Legible) := by
  induction bound with
  | zero => exact fun _ hcontext => lockstep_entering henters (lockstep_pure hcontext) _ _
  | succ bound ih =>
    intro context v hcontext
    refine lockstep_entering henters (lockstep_keyword?_bind ?_) _ _
    cases hkind : v.ahead.kind.keyword?.bind classVariable? with
    | none => exact lockstep_pure hcontext
    | some kind =>
      obtain ⟨w, hw, hclass⟩ := Option.bind_eq_some_iff.mp hkind
      have hlevel : kind.isClassLevel = true := by cases w <;> cases hclass <;> rfl
      refine lockstep_next_bind (TokenKind.ne_eof_of_keyword? hw) (htakes _) fun w _ _ => ?_
      refine (lockstep_declaration htakes henters ⟨hcontext, .inl hlevel⟩).then ?_
      exact fun context w hcontext => ih w hcontext.legible

theorem lockstep_localVariables (bound : Nat) : ∀ {context : Context} (v : View c),
    Roomy c .local_ context →
      Lockstep c v (localVariables c.left bound context) (localVariables c.right bound context)
        (Gives (Roomy c .local_)) := by
  induction bound with
  | zero => exact fun _ hcontext => lockstep_entering henters (lockstep_pure hcontext) _ _
  | succ bound ih =>
    intro context v hcontext
    refine lockstep_entering henters ?_ _ _
    refine lockstep_accept_bind (by simp) (by simp) (htakes _) (fun w => ?_)
      (lockstep_pure hcontext)
    exact (lockstep_declaration htakes henters hcontext).then fun _ w hcontext => ih w hcontext

theorem lockstep_parameters (bound : Nat) : ∀ {context : Context} (v : View c),
    Roomy c .argument context →
      Lockstep c v (parameters c.left bound context) (parameters c.right bound context)
        (Gives (Roomy c .argument)) := by
  induction bound with
  | zero => exact fun _ _ => lockstep_entering henters (lockstep_unexpected _) _ _
  | succ bound ih =>
    intro context v hcontext
    refine lockstep_entering henters ((lockstep_typeName htakes).then fun type w htype => ?_) _ _
    refine (lockstep_declaredName htakes hcontext htype).then fun context w hcontext => ?_
    exact lockstep_accept_bind (by simp) (by simp) (htakes _) (fun w => ih w hcontext)
      (lockstep_pure hcontext)

theorem lockstep_parameterList (hcontext : Roomy c .argument context) (v : View c) :
    Lockstep c v (parameterList c.left bound context) (parameterList c.right bound context)
      (Gives (Roomy c .argument)) := by
  refine lockstep_symbol?_bind ?_
  split
  · exact lockstep_pure hcontext
  · exact lockstep_parameters htakes henters bound v hcontext

/-! ## Subroutines -/

omit htakes henters in
theorem lockstep_enter {className name : String} (kind : SubroutineKind)
    (hclass : c.genuine → IsPath className) (hname : c.genuine → IsPath name) :
    Lockstep c v (enter className name kind) (enter className name kind)
      (Gives fun entered => c.genuine → entered.Legible) := by
  have hlegible := fun hg => Subroutine.legible_enter (hclass hg) (hname hg) kind
  unfold enter
  split
  · exact lockstep_note_bind (fun _ => rfl)
      (lockstep_note_bind (fun _ => rfl) (lockstep_pure hlegible))
  · exact lockstep_note_bind (fun _ => rfl) (lockstep_pure hlegible)

omit htakes in
theorem lockstep_body (hplain : ∀ k : TokenKind, k.Plain → c.takes k)
    (hcontext : Roomy c .local_ context) :
    Lockstep c v (body c.left context bound) (body c.right context bound) Agrees := by
  obtain ⟨entered, hentered⟩ := Option.isSome_iff_exists.mp (hcontext.room.resolve_left (by decide))
  have hlegible := fun hg => (hcontext.legible hg).subroutine entered hentered
  unfold body
  simp only [scope_of_some hentered, pure_bind]
  refine lockstep_write_bind (fun hg => (hlegible hg).name) ?_
  refine .bind (R := fun _ _ _ => True) (.showTable (fun hg => ?_) trivial) fun _ _ w _ => ?_
  · have hkind : IsPrintable entered.kind.text := by cases entered.kind <;> decide
    have htitle : IsPrintable (entered.kind.text ++ " " ++ entered.name) :=
      (hkind.append (by decide)).append (hlegible hg).name.isPrintable
    exact legible_tableListing htitle (hlegible hg).table
  refine lockstep_writeAll_bind (fun _ => legible_prologue _ _) ?_
  have ih := statementsLockstep hplain hcontext.legible henters hentered bound
  exact (ih.statements w _).then fun _ _ _ => lockstep_pure trivial

theorem lockstep_subroutine (hcontext : c.genuine → context.Legible) (kind : SubroutineKind) :
    Lockstep c v (subroutine c.left context bound kind) (subroutine c.right context bound kind)
      Agrees := by
  have hplain : ∀ k : TokenKind, k.Plain → c.takes k := fun k _ => htakes k
  have hrest : ∀ w : View c, Lockstep c w
      (do
        let name ← expectName
        let entered ← enter context.className name kind
        let context ← parenthesized (parameterList c.left bound (context.inside entered))
        braced do
          let context ← localVariables c.left bound context
          body c.left context bound)
      (do
        let name ← expectName
        let entered ← enter context.className name kind
        let context ← parenthesized (parameterList c.right bound (context.inside entered))
        braced do
          let context ← localVariables c.right bound context
          body c.right context bound) Agrees := by
    intro w
    refine (lockstep_expectName hplain).then fun name w hname => ?_
    refine (lockstep_enter kind (fun hg => (hcontext hg).className) hname).then ?_
    intro entered w hentered
    have hinside : Roomy c .argument (context.inside entered) :=
      ⟨fun hg => (hcontext hg).inside (hentered hg), .inr rfl⟩
    refine (lockstep_between hplain (lockstep_parameterList htakes henters hinside)).then ?_
    intro context w hparameters
    refine lockstep_between hplain fun w => ?_
    have hlocals : Roomy c .local_ context :=
      ⟨hparameters.legible, .inr (hparameters.room.resolve_left (by decide))⟩
    refine (lockstep_localVariables htakes henters bound w hlocals).then fun _ w hlocals => ?_
    exact lockstep_body henters hplain hlocals
  refine lockstep_accept_bind (by simp) (by simp) (htakes _) (fun w => hrest w) ?_
  exact (lockstep_typeName htakes).then fun _ w _ => hrest w

theorem lockstep_subroutines (hcontext : c.genuine → context.Legible) (bound : Nat) :
    ∀ v : View c, Lockstep c v (subroutines c.left context bound)
      (subroutines c.right context bound) Agrees := by
  induction bound with
  | zero => exact fun v => lockstep_entering henters (lockstep_pure trivial) _ _
  | succ bound ih =>
    intro v
    refine lockstep_entering henters (lockstep_keyword?_bind ?_) _ _
    cases hkind : v.ahead.kind.keyword?.bind subroutineKind? with
    | none => exact lockstep_pure trivial
    | some kind =>
      obtain ⟨w, hw, -⟩ := Option.bind_eq_some_iff.mp hkind
      refine lockstep_next_bind (TokenKind.ne_eof_of_keyword? hw) (htakes _) fun w _ _ => ?_
      exact (lockstep_subroutine htakes henters hcontext kind).then fun _ w _ => ih w

/-! ## The unit -/

/-- **Lockstep.** Two passes over a class do the same. -/
theorem lockstep_classDeclaration (bound : Nat) (v : View c) :
    Lockstep c v (classDeclaration c.left bound) (classDeclaration c.right bound) Agrees := by
  have hplain : ∀ k : TokenKind, k.Plain → c.takes k := fun k _ => htakes k
  refine (lockstep_keyword .class_ (htakes _)).then fun _ w _ => ?_
  refine (lockstep_expectName hplain).then fun className w hclass => ?_
  refine lockstep_note_bind (fun _ => rfl) (lockstep_between hplain fun w => ?_)
  have hstart : c.genuine → Context.Legible ⟨className, Table.empty, none⟩ := fun hg =>
    ⟨hclass hg, Table.legible_empty, by simp⟩
  refine (lockstep_classVariables htakes henters bound w hstart).then fun context w hcontext => ?_
  refine .bind (R := fun _ _ _ => True) (.showTable (fun hg => ?_) trivial) fun _ _ w _ => ?_
  · have htitle : IsPrintable ("class " ++ className) :=
      IsPrintable.append (by decide) (hclass hg).isPrintable
    exact legible_tableListing htitle (hcontext hg).classTable
  exact lockstep_subroutines htakes henters hcontext bound w

theorem lockstep_compilationUnit (hends : c.ends) (bound : Nat) (v : View c) :
    Lockstep c v (compilationUnit c.left bound) (compilationUnit c.right bound)
      fun _ _ w => w.ahead.kind = .eof :=
  (lockstep_classDeclaration htakes henters bound v).then fun _ _ _ => lockstep_finish hends

end Declarations

end Pass

end Jack
