import Jack.Proofs.Machine.Meaning
import Jack.Proofs.Syntax.Valid

/-!
# The code of an expression computes its value

`Pushes` says what code without jumps does in a given frame and store, whatever is on the stack: it
pushes some values and leaves a store, and the frame and the rest of the stack stay as they are.
Nothing is said of the scratch cells and of `pointer 1`, which the code may use.

1. Code that pushes values is put together from pieces (`Pushes.append`), and what an instruction
   makes of the topmost values is one lemma for each of them.
2. The code of a term pushes one value, that of the term (`Term.pushes`), by recursion on the tree.
-/

namespace Jack

variable {Word : Type} [DecidableEq Word]

/-- Run in the given frame and store, the code pushes these values and leaves this store. -/
def Pushes (M : Machine Word) (code : List Instruction) (f : Frame Word) (st : Store Word)
    (values : List Word) (st' : Store Word) : Prop :=
  ∀ s : Machine.State Word, s.frame = f → s.store = st →
    ∃ target temp, M.exec code s = some ⟨values.reverse ++ s.stack, f, st', target, temp⟩

variable {M : Machine Word} {env : Environment} {f : Frame Word} {st st' st'' : Store Word}
  {code code' : List Instruction} {vs ws : List Word}

/-! ## Pieces of code -/

theorem pushes_nil (M : Machine Word) (f : Frame Word) (st : Store Word) :
    Pushes M [] f st [] st := by
  rintro s rfl rfl
  exact ⟨s.target, s.temp, rfl⟩

/-- Code after code that has pushed values may use them up. -/
theorem Pushes.continue (h : Pushes M code f st vs st')
    (hrest : ∀ stack target temp, ∃ target' temp',
      M.exec code' ⟨vs.reverse ++ stack, f, st', target, temp⟩ =
        some ⟨ws.reverse ++ stack, f, st'', target', temp'⟩) :
    Pushes M (code ++ code') f st ws st'' := by
  intro s hf hst
  obtain ⟨target, temp, hcode⟩ := h s hf hst
  obtain ⟨target', temp', hcode'⟩ := hrest s.stack target temp
  refine ⟨target', temp', ?_⟩
  rw [Machine.exec_append, hcode]
  exact hcode'

theorem Pushes.append (h : Pushes M code f st vs st') (h' : Pushes M code' f st' ws st'') :
    Pushes M (code ++ code') f st (vs ++ ws) st'' := by
  refine h.continue fun stack target temp => ?_
  obtain ⟨target', temp', hcode'⟩ := h' ⟨vs.reverse ++ stack, f, st', target, temp⟩ rfl rfl
  exact ⟨target', temp', by rw [hcode', List.reverse_append, List.append_assoc]⟩

theorem pushes_number (M : Machine Word) (f : Frame Word) (st : Store Word) (n : Nat) :
    Pushes M [.push .constant n] f st [M.number n] st := by
  rintro s rfl rfl
  exact ⟨s.target, s.temp, rfl⟩

theorem pushes_receiver (M : Machine Word) (f : Frame Word) (st : Store Word) :
    Pushes M [.push .pointer 0] f st [f.receiver] st := by
  rintro s rfl rfl
  exact ⟨s.target, s.temp, rfl⟩

theorem pushes_variable (M : Machine Word) (f : Frame Word) (st : Store Word) (v : Variable) :
    Pushes M [.push v.kind.segment v.index] f st [v.value M f st] st := by
  rintro s rfl rfl
  refine ⟨s.target, s.temp, ?_⟩
  obtain ⟨name, type, kind, index⟩ := v
  cases kind <;> rfl

theorem pushes_name {name : String} (M : Machine Word) (f : Frame Word) (st : Store Word)
    (h : env.Declares name) : Pushes M (env.read name) f st [env.value M f st name] st := by
  obtain ⟨v, hv⟩ := Option.isSome_iff_exists.mp h
  unfold Environment.read Environment.value
  rw [hv]
  exact pushes_variable M f st v

theorem pushes_receiverValue (M : Machine Word) (env : Environment) (f : Frame Word)
    (st : Store Word) (r : Option String) :
    Pushes M (env.receiver r) f st (env.receiverValue M f st r) st := by
  cases r with
  | none => exact pushes_receiver M f st
  | some name =>
    simp only [Environment.receiver, Environment.read, Environment.receiverValue]
    cases env.find? name with
    | none => exact pushes_nil M f st
    | some v => exact pushes_variable M f st v

/-! ## Instructions on pushed values -/

theorem Pushes.unary {a : Word} (op : UnaryOperator) (h : Pushes M code f st [a] st') :
    Pushes M (code ++ [op.code]) f st [op.apply M a] st' := by
  refine h.continue fun stack target temp => ⟨target, temp, ?_⟩
  cases op <;> rfl

/-- A call takes the values pushed as its arguments. -/
theorem Pushes.call (name : String) (h : Pushes M code f st vs st') :
    Pushes M (code ++ [.call name vs.length]) f st
      [(M.call name vs st').1] (M.call name vs st').2 := by
  refine h.continue fun stack target temp => ⟨target, M.scratch name vs st' temp, ?_⟩
  have htake : (vs.reverse ++ stack).take vs.length = vs.reverse := by
    rw [← List.length_reverse, List.take_left]
  have hdrop : (vs.reverse ++ stack).drop vs.length = stack := by
    rw [← List.length_reverse, List.drop_left]
  have hlength : vs.length ≤ (vs.reverse ++ stack).length := by simp
  show (M.invoke name vs.length _).bind (M.exec []) = _
  unfold Machine.invoke
  rw [if_pos hlength]
  simp only [htake, hdrop, List.reverse_reverse]
  rfl

theorem Pushes.binary {a b : Word} (op : BinaryOperator) (h : Pushes M code f st [a, b] st') :
    Pushes M (code ++ [op.code]) f st [(op.apply M a b st').1] (op.apply M a b st').2 := by
  cases op with
  | mul => exact h.call "Math.multiply"
  | div => exact h.call "Math.divide"
  | _ => exact h.continue fun stack target temp => ⟨target, temp, rfl⟩

/-- The value of an array's element, from the array and the index. -/
theorem Pushes.element {a i : Word} (h : Pushes M code f st [a, i] st') :
    Pushes M (code ++ [.operate .add, .pop .pointer 1, .push .that 0]) f st
      [st'.memory (M.binary .add a i)] st' := by
  refine h.continue fun stack target temp => ⟨M.binary .add a i, temp, ?_⟩
  show some _ = some _
  rw [M.cell_zero]
  rfl

/-! ## Strings -/

theorem Pushes.appendChars {text : Word} (characters : List Char)
    (h : Pushes M code f st [text] st') :
    Pushes M (code ++ characters.flatMap fun c => [.push .constant c.toNat,
        .call "String.appendChar" 2]) f st
      [(Jack.appendChars M characters text st').1] (Jack.appendChars M characters text st').2 := by
  induction characters generalizing code text st' with
  | nil =>
    rw [List.flatMap_nil, List.append_nil]
    exact h
  | cons c rest ih =>
    have hchar := (h.append (pushes_number M f st' c.toNat)).call "String.appendChar"
    have hrest := ih hchar
    rw [List.append_assoc, List.append_assoc] at hrest
    exact hrest

theorem pushes_newString (M : Machine Word) (f : Frame Word) (st : Store Word)
    (characters : List Char) :
    Pushes M (stringText characters) f st
      [(newString M characters st).1] (newString M characters st).2 :=
  ((pushes_number M f st characters.length).call "String.new").appendChars characters

/-! ## Trees -/

section Trees

variable (M) (env) (f)

mutual

/-- **Terms.** The code of a term pushes its value. -/
theorem Term.pushes : ∀ (t : Term) (st : Store Word), t.Valid env →
    Pushes M (t.code env) f st [(t.eval M env f st).1] (t.eval M env f st).2
  | .integer value _, st, _ => pushes_number M f st value
  | .string characters, st, _ => pushes_newString M f st characters.toList
  | .word w, st, _ => by
    cases w with
    | true_ => exact (pushes_number M f st 1).unary .neg
    | false_ => exact pushes_number M f st 0
    | null => exact pushes_number M f st 0
    | this_ => exact pushes_receiver M f st
  | .var name, st, hvalid => pushes_name M f st hvalid
  | .element name index, st, hvalid => by
    have harray := pushes_name M f st hvalid.1
    exact (harray.append (Expression.pushes index st hvalid.2)).element
  | .call c, st, hvalid => Call.pushes c st hvalid
  | .parenthesized inner, st, hvalid => Expression.pushes inner st hvalid
  | .unary op operand, st, hvalid => (Term.pushes operand st hvalid).unary op

/-- **Expressions.** The code of an expression pushes its value. -/
theorem Expression.pushes : ∀ (e : Expression) (st : Store Word), e.Valid env →
    Pushes M (e.code env) f st [(e.eval M env f st).1] (e.eval M env f st).2
  | .mk first rest, st, hvalid =>
    Expression.pushes_rest rest hvalid.2 (Term.pushes first st hvalid.1)

/-- After the left operand, the code of operators and their right operands leaves one value. -/
theorem Expression.pushes_rest : ∀ (rest : List (BinaryOperator × Term)) {a : Word}
    {st st' : Store Word} {code : List Instruction}, Expression.RestValid env rest →
    Pushes M code f st [a] st' →
    Pushes M (code ++ Expression.restCode env rest) f st
      [(Expression.evalRest M env f rest a st').1] (Expression.evalRest M env f rest a st').2
  | [], a, st, st', code, _, h => by
    rw [Expression.restCode, List.append_nil]
    exact h
  | (op, operand) :: rest, a, st, st', code, hvalid, h => by
    have hoperand := (h.append (Term.pushes operand st' hvalid.1)).binary op
    have hrest := Expression.pushes_rest rest hvalid.2 hoperand
    rw [List.append_assoc, List.append_assoc] at hrest
    exact hrest

/-- **Calls.** The code of a call pushes its result. -/
theorem Call.pushes : ∀ (c : Call) (st : Store Word), c.Valid env →
    Pushes M (c.code env) f st [(c.eval M env f st).1] (c.eval M env f st).2
  | .mk receiver name arguments, st, hvalid => by
    have hall := (pushes_receiverValue M env f st receiver).append
      (Call.pushes_arguments arguments st hvalid.1)
    have hcall := hall.call (env.routine receiver name)
    rw [List.length_append, Environment.length_receiverValue, Call.length_evalArguments] at hcall
    exact hcall

/-- The code of arguments pushes their values. -/
theorem Call.pushes_arguments : ∀ (arguments : List Expression) (st : Store Word),
    Call.ArgumentsValid env arguments →
    Pushes M (Call.argumentCode env arguments) f st
      (Call.evalArguments M env f arguments st).1 (Call.evalArguments M env f arguments st).2
  | [], st, _ => pushes_nil M f st
  | e :: more, st, hvalid =>
    (Expression.pushes e st hvalid.1).append (Call.pushes_arguments more _ hvalid.2)

end

end Trees

end Jack
