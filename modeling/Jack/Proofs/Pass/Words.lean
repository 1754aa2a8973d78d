import Jack.Proofs.Syntax.Code

/-!
# Words and fixed code

The tables by which a pass tells keywords and symbols apart answer exactly for the words of syntax
trees, and with the code of these. The same for the pieces of code that a pass writes as they stand.
-/

namespace Jack

theorem binaryOperator?_symbol (op : BinaryOperator) :
    binaryOperator? op.symbol = some op.code := by
  cases op <;> rfl

theorem exists_of_binaryOperator? {y : Symbol} {i : Instruction} (h : binaryOperator? y = some i) :
    ∃ op : BinaryOperator, op.symbol = y ∧ op.code = i := by
  cases y <;> simp only [binaryOperator?, Option.some.injEq, reduceCtorEq] at h
  · exact ⟨.add, rfl, h⟩
  · exact ⟨.sub, rfl, h⟩
  · exact ⟨.mul, rfl, h⟩
  · exact ⟨.div, rfl, h⟩
  · exact ⟨.and, rfl, h⟩
  · exact ⟨.or, rfl, h⟩
  · exact ⟨.lt, rfl, h⟩
  · exact ⟨.gt, rfl, h⟩
  · exact ⟨.eq, rfl, h⟩

theorem exists_of_unaryOperator? {y : Symbol} {i : Instruction} (h : unaryOperator? y = some i) :
    ∃ op : UnaryOperator, op.symbol = y ∧ op.code = i := by
  cases y <;> simp only [unaryOperator?, Option.some.injEq, reduceCtorEq] at h
  · exact ⟨.neg, rfl, h⟩
  · exact ⟨.not, rfl, h⟩

theorem keywordConstant?_keyword (w : ValueWord) : keywordConstant? w.keyword = some w.code := by
  cases w <;> rfl

theorem exists_of_keywordConstant? {k : Keyword} {code : List Instruction}
    (h : keywordConstant? k = some code) : ∃ w : ValueWord, w.keyword = k ∧ w.code = code := by
  cases k <;> simp only [keywordConstant?, Option.some.injEq, reduceCtorEq] at h
  · exact ⟨.true_, rfl, h⟩
  · exact ⟨.false_, rfl, h⟩
  · exact ⟨.null, rfl, h⟩
  · exact ⟨.this_, rfl, h⟩

theorem classVariable?_keyword (w : ClassStorage) : classVariable? w.keyword = some w.kind := by
  cases w <;> rfl

theorem exists_of_classVariable? {k : Keyword} {kind : VariableKind}
    (h : classVariable? k = some kind) : ∃ w : ClassStorage, w.keyword = k ∧ w.kind = kind := by
  cases k <;> simp only [classVariable?, Option.some.injEq, reduceCtorEq] at h
  · exact ⟨.field, rfl, h⟩
  · exact ⟨.static, rfl, h⟩

theorem subroutineKind?_keyword (kind : SubroutineKind) :
    subroutineKind? kind.keyword = some kind := by
  cases kind <;> rfl

theorem keyword_of_subroutineKind? {k : Keyword} {kind : SubroutineKind}
    (h : subroutineKind? k = some kind) : kind.keyword = k := by
  cases k <;> simp only [subroutineKind?, Option.some.injEq, reduceCtorEq] at h <;> rw [← h] <;> rfl

/-- The primitive types are those of syntax trees. -/
theorem exists_of_isType {k : Keyword} (h : k.isType = true) :
    ∃ t : TypeName, t.token = .keyword k ∧ t.text = k.text := by
  cases k <;> simp only [Keyword.isType, Bool.false_eq_true] at h
  · exact ⟨.int, rfl, rfl⟩
  · exact ⟨.char, rfl, rfl⟩
  · exact ⟨.boolean, rfl, rfl⟩

/-! ## Fixed code -/

/-- A pass starts the code of a subroutine as its tree does. -/
theorem prologue_eq (c : ClassDec) (d : SubroutineDec) :
    prologue d.kind ((tableOf c.declarations).count .field) = d.entry c := by
  rw [count_tableOf]
  unfold prologue SubroutineDec.entry
  cases d.kind <;> rfl

theorem label_environment {context : Context} {subroutine : Subroutine}
    (h : context.subroutine = some subroutine) (mark : Mark) (number : Nat) :
    (Label.mk subroutine.name mark number).text = context.environment.label mark.text number := by
  unfold Context.environment
  rw [h]
  rfl

end Jack
