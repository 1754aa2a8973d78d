import Jack.Proofs.Independence
import Jack.Proofs.Syntax.Rename

/-!
# Names of variables do not matter

The code of a class holds slots, and no names of variables. Renaming the variables of a class, so
that different names stay different, does not change it. One sort of name that looks like that of a
variable is in the code: a name before the dot of a call that stands for no variable is that of a
class. It has to stay as it is.

1. `Statement.receivers` are the names before a dot; `Environment.KeepsClass` says of one of them
   that it stays if it stands for no variable.
2. In corresponding environments, trees before and after renaming have the same code
   (`Statement.code_rename`) and meet the same conditions (`Statement.valid_rename`).
3. So do whole classes (`ClassDec.code_rename`, `ClassDec.valid_rename`), and a text of the
   renamed class is compiled to what a text of the class is compiled to
   (`compile_is_invariant_under_renaming`).
-/

namespace Jack

/-! ## Names before a dot -/

mutual

/-- The names before the dot of a call in a term. -/
def Term.receivers : Term → List String
  | .integer _ _ | .string _ | .word _ | .var _ => []
  | .element _ index => index.receivers
  | .call c => c.receivers
  | .parenthesized inner => inner.receivers
  | .unary _ operand => operand.receivers

/-- The names before the dot of a call in an expression. -/
def Expression.receivers : Expression → List String
  | .mk first rest => first.receivers ++ Expression.restReceivers rest

/-- The names before the dot of a call in right operands. -/
def Expression.restReceivers : List (BinaryOperator × Term) → List String
  | [] => []
  | (_, operand) :: rest => operand.receivers ++ Expression.restReceivers rest

/-- The names before the dot of a call, and of those in its arguments. -/
def Call.receivers : Call → List String
  | .mk receiver _ arguments => receiver.toList ++ Call.argumentReceivers arguments

/-- The names before the dot of a call in arguments. -/
def Call.argumentReceivers : List Expression → List String
  | [] => []
  | e :: more => e.receivers ++ Call.argumentReceivers more

end

mutual

/-- The names before the dot of a call in a statement. -/
def Statement.receivers : Statement → List String
  | .let_ _ value => value.receivers
  | .letElement _ index value => index.receivers ++ value.receivers
  | .if_ condition yes => condition.receivers ++ Statement.blockReceivers yes
  | .ifElse condition yes no =>
    condition.receivers ++ (Statement.blockReceivers yes ++ Statement.blockReceivers no)
  | .while_ condition body => condition.receivers ++ Statement.blockReceivers body
  | .do_ call => call.receivers
  | .return_ none => []
  | .return_ (some value) => value.receivers

/-- The names before the dot of a call in statements. -/
def Statement.blockReceivers : List Statement → List String
  | [] => []
  | s :: rest => s.receivers ++ Statement.blockReceivers rest

end

/-- A name that stands for no variable is the same after renaming. -/
def Environment.KeepsClass (env : Environment) (f : String → String) (name : String) : Prop :=
  ¬ env.Declares name → f name = name

namespace Environment

variable {f : String → String} {env env' : Environment} {name : String}

theorem Corresponds.declares_iff (h : env.Corresponds f env') (hname : IsName name) :
    env'.Declares (f name) ↔ env.Declares name := by
  unfold Declares
  rw [h.find? name hname, Option.isSome_map]

theorem Corresponds.read (h : env.Corresponds f env') (hname : IsName name) :
    env'.read (f name) = env.read name := by
  unfold Environment.read
  rw [h.find? name hname]
  cases env.find? name <;> rfl

theorem Corresponds.write (h : env.Corresponds f env') (hname : IsName name) :
    env'.write (f name) = env.write name := by
  unfold Environment.write
  rw [h.find? name hname]
  cases env.find? name <;> rfl

theorem Corresponds.implicit (h : env.Corresponds f env') {receiver : Option String}
    (hreceiver : ∀ name ∈ receiver, IsName name) :
    env'.implicit (receiver.map f) = env.implicit receiver := by
  cases receiver with
  | none => rfl
  | some name => simp [Environment.implicit, h.find? name (hreceiver name rfl)]

theorem Corresponds.receiver (h : env.Corresponds f env') {receiver : Option String}
    (hreceiver : ∀ name ∈ receiver, IsName name) :
    env'.receiver (receiver.map f) = env.receiver receiver := by
  cases receiver with
  | none => rfl
  | some name => exact h.read (hreceiver name rfl)

/-- A call goes to the same subroutine: that of a type, which is not renamed, or that of a class,
which keeps its name. -/
theorem Corresponds.routine (h : env.Corresponds f env') {receiver : Option String}
    (hreceiver : ∀ name ∈ receiver, IsName name) (hkeep : ∀ name ∈ receiver, env.KeepsClass f name)
    (member : String) : env'.routine (receiver.map f) member = env.routine receiver member := by
  cases receiver with
  | none => simp [Environment.routine, h.className]
  | some name =>
    simp only [Environment.routine, Option.map_some, h.find? name (hreceiver name rfl)]
    cases hfind : env.find? name with
    | some v => rfl
    | none =>
      have hsame := hkeep name rfl (by simp [Declares, hfind])
      simp [hsame]

theorem Corresponds.label (h : env.Corresponds f env') (mark : String) (number : Nat) :
    env'.label mark number = env.label mark number := by
  unfold Environment.label
  rw [h.subroutine]

end Environment

theorem Call.isName_receiver {receiver : Option String} {name : String}
    (h : ∀ k ∈ Call.headTokens receiver name, k.WellFormed) : ∀ r ∈ receiver, IsName r := by
  cases receiver with
  | none => simp
  | some r =>
    intro other hother
    obtain rfl := Option.some.inj hother
    exact h _ (List.mem_cons_self ..)

theorem Call.wellFormed_more {es : List Expression}
    (h : ∀ k ∈ Call.moreTokens es, k.WellFormed) : ∀ e ∈ es, ∀ k ∈ e.tokens, k.WellFormed := by
  induction es with
  | nil => simp
  | cons e more ih =>
    rw [Call.moreTokens, List.forall_mem_cons, List.forall_mem_append] at h
    exact List.forall_mem_cons.mpr ⟨h.2.1, ih h.2.2⟩

theorem Call.wellFormed_arguments {es : List Expression}
    (h : ∀ k ∈ Call.argumentTokens es, k.WellFormed) : ∀ e ∈ es, ∀ k ∈ e.tokens, k.WellFormed := by
  cases es with
  | nil => simp
  | cons e more =>
    rw [Call.argumentTokens, List.forall_mem_append] at h
    exact List.forall_mem_cons.mpr ⟨h.1, Call.wellFormed_more h.2⟩

theorem Call.length_renameArguments (f : String → String) (es : List Expression) :
    (Call.renameArguments f es).length = es.length := by
  induction es with
  | nil => rfl
  | cons e more ih => rw [Call.renameArguments, List.length_cons, List.length_cons, ih]

section Expressions

variable {f : String → String} {env env' : Environment}

mutual

theorem Term.code_rename (h : env.Corresponds f env') :
    ∀ t : Term, (∀ k ∈ t.tokens, k.WellFormed) →
      (∀ name ∈ t.receivers, env.KeepsClass f name) → (t.rename f).code env' = t.code env
  | .integer _ _, _, _ | .string _, _, _ | .word _, _, _ => rfl
  | .var name, htokens, _ => h.read (htokens _ (List.mem_singleton_self _))
  | .element name index, htokens, hkeep => by
    rw [Term.tokens, List.forall_mem_cons] at htokens
    rw [Term.rename, Term.code, Term.code, h.read htokens.1,
      Expression.code_rename h index (forall_mem_enclosed htokens.2) hkeep]
  | .call c, htokens, hkeep => Call.code_rename h c htokens hkeep
  | .parenthesized inner, htokens, hkeep =>
    Expression.code_rename h inner (forall_mem_enclosed htokens) hkeep
  | .unary _ operand, htokens, hkeep => by
    rw [Term.tokens, List.forall_mem_cons] at htokens
    rw [Term.rename, Term.code, Term.code, Term.code_rename h operand htokens.2 hkeep]

theorem Expression.code_rename (h : env.Corresponds f env') :
    ∀ e : Expression, (∀ k ∈ e.tokens, k.WellFormed) →
      (∀ name ∈ e.receivers, env.KeepsClass f name) → (e.rename f).code env' = e.code env
  | .mk first rest, htokens, hkeep => by
    rw [Expression.tokens, List.forall_mem_append] at htokens
    rw [Expression.receivers, List.forall_mem_append] at hkeep
    rw [Expression.rename, Expression.code, Expression.code,
      Term.code_rename h first htokens.1 hkeep.1,
      Expression.restCode_rename h rest htokens.2 hkeep.2]

theorem Expression.restCode_rename (h : env.Corresponds f env') :
    ∀ rest : List (BinaryOperator × Term),
      (∀ k ∈ Expression.restTokens rest, k.WellFormed) →
      (∀ name ∈ Expression.restReceivers rest, env.KeepsClass f name) →
      Expression.restCode env' (Expression.renameRest f rest) = Expression.restCode env rest
  | [], _, _ => rfl
  | (_, operand) :: rest, htokens, hkeep => by
    rw [Expression.restTokens, List.forall_mem_cons, List.forall_mem_append] at htokens
    rw [Expression.restReceivers, List.forall_mem_append] at hkeep
    rw [Expression.renameRest, Expression.restCode, Expression.restCode,
      Term.code_rename h operand htokens.2.1 hkeep.1,
      Expression.restCode_rename h rest htokens.2.2 hkeep.2]

theorem Call.code_rename (h : env.Corresponds f env') :
    ∀ c : Call, (∀ k ∈ c.tokens, k.WellFormed) →
      (∀ name ∈ c.receivers, env.KeepsClass f name) → (c.rename f).code env' = c.code env
  | .mk receiver name arguments, htokens, hkeep => by
    rw [Call.tokens, List.forall_mem_append] at htokens
    rw [Call.receivers, List.forall_mem_append] at hkeep
    have hreceiver := Call.isName_receiver htokens.1
    have hclass : ∀ r ∈ receiver, env.KeepsClass f r := fun r hr =>
      hkeep.1 r (Option.mem_toList.mpr hr)
    rw [Call.rename, Call.code, Call.code, h.receiver hreceiver, h.routine hreceiver hclass,
      h.implicit hreceiver, Call.length_renameArguments,
      Call.argumentCode_rename h arguments
        (Call.wellFormed_arguments (forall_mem_enclosed htokens.2)) hkeep.2]

theorem Call.argumentCode_rename (h : env.Corresponds f env') :
    ∀ es : List Expression,
      (∀ e ∈ es, ∀ k ∈ e.tokens, k.WellFormed) →
      (∀ name ∈ Call.argumentReceivers es, env.KeepsClass f name) →
      Call.argumentCode env' (Call.renameArguments f es) = Call.argumentCode env es
  | [], _, _ => rfl
  | e :: more, htokens, hkeep => by
    rw [List.forall_mem_cons] at htokens
    rw [Call.argumentReceivers, List.forall_mem_append] at hkeep
    rw [Call.renameArguments, Call.argumentCode, Call.argumentCode,
      Expression.code_rename h e htokens.1 hkeep.1,
      Call.argumentCode_rename h more htokens.2 hkeep.2]

end

mutual

theorem Term.valid_rename (h : env.Corresponds f env') :
    ∀ t : Term, (∀ k ∈ t.tokens, k.WellFormed) → ((t.rename f).Valid env' ↔ t.Valid env)
  | .integer _ _, _ | .string _, _ | .word _, _ => Iff.rfl
  | .var name, htokens => h.declares_iff (htokens _ (List.mem_singleton_self _))
  | .element name index, htokens => by
    rw [Term.tokens, List.forall_mem_cons] at htokens
    exact and_congr (h.declares_iff htokens.1)
      (Expression.valid_rename h index (forall_mem_enclosed htokens.2))
  | .call c, htokens => Call.valid_rename h c htokens
  | .parenthesized inner, htokens =>
    Expression.valid_rename h inner (forall_mem_enclosed htokens)
  | .unary _ operand, htokens => by
    rw [Term.tokens, List.forall_mem_cons] at htokens
    exact Term.valid_rename h operand htokens.2

theorem Expression.valid_rename (h : env.Corresponds f env') :
    ∀ e : Expression, (∀ k ∈ e.tokens, k.WellFormed) → ((e.rename f).Valid env' ↔ e.Valid env)
  | .mk first rest, htokens => by
    rw [Expression.tokens, List.forall_mem_append] at htokens
    exact and_congr (Term.valid_rename h first htokens.1)
      (Expression.restValid_rename h rest htokens.2)

theorem Expression.restValid_rename (h : env.Corresponds f env') :
    ∀ rest : List (BinaryOperator × Term),
      (∀ k ∈ Expression.restTokens rest, k.WellFormed) →
      (Expression.RestValid env' (Expression.renameRest f rest) ↔ Expression.RestValid env rest)
  | [], _ => Iff.rfl
  | (_, operand) :: rest, htokens => by
    rw [Expression.restTokens, List.forall_mem_cons, List.forall_mem_append] at htokens
    exact and_congr (Term.valid_rename h operand htokens.2.1)
      (Expression.restValid_rename h rest htokens.2.2)

theorem Call.valid_rename (h : env.Corresponds f env') :
    ∀ c : Call, (∀ k ∈ c.tokens, k.WellFormed) → ((c.rename f).Valid env' ↔ c.Valid env)
  | .mk receiver name arguments, htokens => by
    rw [Call.tokens, List.forall_mem_append] at htokens
    rw [Call.rename, Call.Valid, Call.Valid, h.implicit (Call.isName_receiver htokens.1),
      Call.length_renameArguments]
    exact and_congr_left' (Call.argumentsValid_rename h arguments
      (Call.wellFormed_arguments (forall_mem_enclosed htokens.2)))

theorem Call.argumentsValid_rename (h : env.Corresponds f env') :
    ∀ es : List Expression,
      (∀ e ∈ es, ∀ k ∈ e.tokens, k.WellFormed) →
      (Call.ArgumentsValid env' (Call.renameArguments f es) ↔ Call.ArgumentsValid env es)
  | [], _ => Iff.rfl
  | e :: more, htokens => by
    rw [List.forall_mem_cons] at htokens
    exact and_congr (Expression.valid_rename h e htokens.1)
      (Call.argumentsValid_rename h more htokens.2)

end

end Expressions

mutual

theorem Statement.after_rename (f : String → String) :
    ∀ (s : Statement) (n : Labels), (s.rename f).after n = s.after n
  | .let_ _ _, _ | .letElement _ _ _, _ | .do_ _, _ | .return_ _, _ => rfl
  | .if_ _ yes, _ => Statement.blockAfter_rename f yes _
  | .ifElse _ yes no, n => by
    rw [Statement.rename, Statement.after, Statement.after, Statement.blockAfter_rename f yes,
      Statement.blockAfter_rename f no]
  | .while_ _ body, _ => Statement.blockAfter_rename f body _

theorem Statement.blockAfter_rename (f : String → String) : ∀ (ts : List Statement) (n : Labels),
    Statement.blockAfter (Statement.renameBlock f ts) n = Statement.blockAfter ts n
  | [], _ => rfl
  | s :: rest, n => by
    rw [Statement.renameBlock, Statement.blockAfter, Statement.blockAfter,
      Statement.after_rename f s, Statement.blockAfter_rename f rest]

end

section Statements

variable {f : String → String} {env env' : Environment}

mutual

/-- **Statements.** The code of a statement does not depend on the names of its variables. -/
theorem Statement.code_rename (h : env.Corresponds f env') :
    ∀ (s : Statement) (n : Labels), (∀ k ∈ s.tokens, k.WellFormed) →
      (∀ name ∈ s.receivers, env.KeepsClass f name) → (s.rename f).code env' n = s.code env n
  | .let_ name value, n, htokens, hkeep => by
    simp only [Statement.tokens, List.forall_mem_cons, List.forall_mem_append] at htokens
    rw [Statement.rename, Statement.code, Statement.code,
      Expression.code_rename h value htokens.2.2.2.1 hkeep, h.write htokens.2.1]
  | .letElement name index value, n, htokens, hkeep => by
    simp only [Statement.tokens, List.forall_mem_cons, List.forall_mem_append] at htokens
    obtain ⟨-, hname, hindex, -, hvalue, -⟩ := htokens
    rw [Statement.receivers, List.forall_mem_append] at hkeep
    rw [Statement.rename, Statement.code, Statement.code, h.read hname,
      Expression.code_rename h index (forall_mem_enclosed hindex) hkeep.1,
      Expression.code_rename h value hvalue hkeep.2]
  | .if_ condition yes, n, htokens, hkeep => by
    simp only [Statement.tokens, List.forall_mem_cons, List.forall_mem_append] at htokens
    obtain ⟨-, hcondition, hyes⟩ := htokens
    rw [Statement.receivers, List.forall_mem_append] at hkeep
    rw [Statement.rename, Statement.code, Statement.code,
      Expression.code_rename h condition (forall_mem_enclosed hcondition) hkeep.1,
      Statement.blockCode_rename h yes _ (forall_mem_enclosed hyes) hkeep.2, h.label]
  | .ifElse condition yes no, n, htokens, hkeep => by
    simp only [Statement.tokens, List.forall_mem_cons, List.forall_mem_append] at htokens
    obtain ⟨-, hcondition, hyes, -, hno⟩ := htokens
    rw [Statement.receivers, List.forall_mem_append, List.forall_mem_append] at hkeep
    rw [Statement.rename, Statement.code, Statement.code,
      Expression.code_rename h condition (forall_mem_enclosed hcondition) hkeep.1,
      Statement.blockCode_rename h yes _ (forall_mem_enclosed hyes) hkeep.2.1,
      Statement.blockAfter_rename,
      Statement.blockCode_rename h no _ (forall_mem_enclosed hno) hkeep.2.2, h.label, h.label]
  | .while_ condition body, n, htokens, hkeep => by
    simp only [Statement.tokens, List.forall_mem_cons, List.forall_mem_append] at htokens
    obtain ⟨-, hcondition, hbody⟩ := htokens
    rw [Statement.receivers, List.forall_mem_append] at hkeep
    rw [Statement.rename, Statement.code, Statement.code,
      Expression.code_rename h condition (forall_mem_enclosed hcondition) hkeep.1,
      Statement.blockCode_rename h body _ (forall_mem_enclosed hbody) hkeep.2, h.label, h.label]
  | .do_ call, n, htokens, hkeep => by
    simp only [Statement.tokens, List.forall_mem_cons, List.forall_mem_append] at htokens
    rw [Statement.rename, Statement.code, Statement.code,
      Call.code_rename h call htokens.2.1 hkeep]
  | .return_ none, _, _, _ => rfl
  | .return_ (some value), n, htokens, hkeep => by
    simp only [Statement.tokens, List.forall_mem_cons, List.forall_mem_append] at htokens
    rw [Statement.rename, Option.map_some, Statement.code, Statement.code,
      Expression.code_rename h value htokens.2.1 hkeep]

theorem Statement.blockCode_rename (h : env.Corresponds f env') :
    ∀ (ts : List Statement) (n : Labels), (∀ k ∈ Statement.blockTokens ts, k.WellFormed) →
      (∀ name ∈ Statement.blockReceivers ts, env.KeepsClass f name) →
      Statement.blockCode env' (Statement.renameBlock f ts) n = Statement.blockCode env ts n
  | [], _, _, _ => rfl
  | s :: rest, n, htokens, hkeep => by
    rw [Statement.blockTokens, List.forall_mem_append] at htokens
    rw [Statement.blockReceivers, List.forall_mem_append] at hkeep
    rw [Statement.renameBlock, Statement.blockCode, Statement.blockCode,
      Statement.code_rename h s n htokens.1 hkeep.1, Statement.after_rename,
      Statement.blockCode_rename h rest _ htokens.2 hkeep.2]

end

mutual

theorem Statement.valid_rename (h : env.Corresponds f env') :
    ∀ s : Statement, (∀ k ∈ s.tokens, k.WellFormed) → ((s.rename f).Valid env' ↔ s.Valid env)
  | .let_ name value, htokens => by
    simp only [Statement.tokens, List.forall_mem_cons, List.forall_mem_append] at htokens
    exact and_congr (h.declares_iff htokens.2.1)
      (Expression.valid_rename h value htokens.2.2.2.1)
  | .letElement name index value, htokens => by
    simp only [Statement.tokens, List.forall_mem_cons, List.forall_mem_append] at htokens
    obtain ⟨-, hname, hindex, -, hvalue, -⟩ := htokens
    exact and_congr (h.declares_iff hname) (and_congr
      (Expression.valid_rename h index (forall_mem_enclosed hindex))
      (Expression.valid_rename h value hvalue))
  | .if_ condition yes, htokens => by
    simp only [Statement.tokens, List.forall_mem_cons, List.forall_mem_append] at htokens
    obtain ⟨-, hcondition, hyes⟩ := htokens
    exact and_congr (Expression.valid_rename h condition (forall_mem_enclosed hcondition))
      (Statement.blockValid_rename h yes (forall_mem_enclosed hyes))
  | .ifElse condition yes no, htokens => by
    simp only [Statement.tokens, List.forall_mem_cons, List.forall_mem_append] at htokens
    obtain ⟨-, hcondition, hyes, -, hno⟩ := htokens
    exact and_congr (Expression.valid_rename h condition (forall_mem_enclosed hcondition))
      (and_congr (Statement.blockValid_rename h yes (forall_mem_enclosed hyes))
        (Statement.blockValid_rename h no (forall_mem_enclosed hno)))
  | .while_ condition body, htokens => by
    simp only [Statement.tokens, List.forall_mem_cons, List.forall_mem_append] at htokens
    obtain ⟨-, hcondition, hbody⟩ := htokens
    exact and_congr (Expression.valid_rename h condition (forall_mem_enclosed hcondition))
      (Statement.blockValid_rename h body (forall_mem_enclosed hbody))
  | .do_ call, htokens => by
    simp only [Statement.tokens, List.forall_mem_cons, List.forall_mem_append] at htokens
    exact Call.valid_rename h call htokens.2.1
  | .return_ none, _ => Iff.rfl
  | .return_ (some value), htokens => by
    simp only [Statement.tokens, List.forall_mem_cons, List.forall_mem_append] at htokens
    exact Expression.valid_rename h value htokens.2.1

theorem Statement.blockValid_rename (h : env.Corresponds f env') :
    ∀ ts : List Statement, (∀ k ∈ Statement.blockTokens ts, k.WellFormed) →
      (Statement.BlockValid env' (Statement.renameBlock f ts) ↔ Statement.BlockValid env ts)
  | [], _ => Iff.rfl
  | s :: rest, htokens => by
    rw [Statement.blockTokens, List.forall_mem_append] at htokens
    exact and_congr (Statement.valid_rename h s htokens.1)
      (Statement.blockValid_rename h rest htokens.2)

end

end Statements

/-! ## Classes -/

/-- What a class declares is among its tokens. -/
theorem ClassDec.mem_tokens_of_declarations {c : ClassDec} {v : Declaration}
    (h : v ∈ c.declarations) : .identifier v.name ∈ c.tokens := by
  obtain ⟨d, hd, hv⟩ := List.mem_flatMap.mp h
  obtain ⟨name, hname, rfl⟩ := List.mem_map.mp hv
  have hinside : .identifier name ∈ c.vars.flatMap ClassVariableDec.tokens :=
    List.mem_flatMap.mpr ⟨d, hd, List.mem_cons_of_mem _ (VariableDec.mem_tokens hname)⟩
  simp only [tokens, enclosed, List.mem_cons, List.mem_append]
  tauto

/-- The name stands before the dot of a call in the class, in a place where it is that of no
variable. -/
def ClassDec.CallsClass (c : ClassDec) (name : String) : Prop :=
  ∃ d ∈ c.subroutines, name ∈ Statement.blockReceivers d.body ∧
    ¬ (d.environment c).Declares name

section Classes

variable {r : Renaming} {c : ClassDec} (htokens : ∀ k ∈ c.tokens, k.WellFormed)

include htokens

theorem ClassDec.corresponds {d : SubroutineDec} (hd : d ∈ c.subroutines) :
    (d.environment c).Corresponds r.newName
      ((d.rename r.newName).environment (c.rename r.newName)) :=
  SubroutineDec.corresponds r (fun _ hv => htokens _ (ClassDec.mem_tokens_of_declarations hv))
    fun _ hv => htokens _ (ClassDec.mem_tokens hd hv)

/-- The code of a class does not depend on the names of its variables. -/
theorem ClassDec.code_rename (hkeep : ∀ name, c.CallsClass name → r.newName name = name) :
    (c.rename r.newName).code = c.code := by
  unfold ClassDec.code
  rw [ClassDec.rename, List.flatMap_map]
  refine List.flatMap_congr fun d hd => ?_
  have hbody : (d.rename r.newName).bodyCode (c.rename r.newName) = d.bodyCode c :=
    Statement.blockCode_rename (ClassDec.corresponds htokens hd) d.body {}
      (ClassDec.wellFormed_block hd htokens) fun name hname hclass =>
        hkeep name ⟨d, hd, hname, hclass⟩
  have hentry : (d.rename r.newName).entry (c.rename r.newName) = d.entry c := by
    unfold SubroutineDec.entry
    rw [ClassDec.declarations_rename, Declaration.countP_rename]
    rfl
  have hlocals : (d.rename r.newName).localVariables.length = d.localVariables.length := by
    simp [SubroutineDec.localVariables, SubroutineDec.rename, List.length_flatMap,
      VariableDec.declarations_rename, Function.comp_def]
  show SubroutineDec.code (c.rename r.newName) (d.rename r.newName) = _
  unfold SubroutineDec.code
  rw [hbody, hentry, hlocals]
  rfl

theorem ClassDec.valid_rename (h : c.Valid) : (c.rename r.newName).Valid := by
  intro d' hd'
  obtain ⟨d, hd, rfl⟩ := List.mem_map.mp hd'
  exact (Statement.blockValid_rename (ClassDec.corresponds htokens hd) d.body
    (ClassDec.wellFormed_block hd htokens)).mpr (h d hd)

theorem ClassDec.distinct_rename (h : c.Distinct) : (c.rename r.newName).Distinct := by
  constructor
  · rw [ClassDec.declarations_rename]
    exact Declaration.distinct_rename
      (fun _ hv => htokens _ (ClassDec.mem_tokens_of_declarations hv)) h.1
  · intro d' hd'
    obtain ⟨d, hd, rfl⟩ := List.mem_map.mp hd'
    rw [SubroutineDec.declarations_rename]
    exact Declaration.distinct_rename (fun _ hv => htokens _ (ClassDec.mem_tokens hd hv))
      (h.2 d hd)

end Classes

/-- **Renaming.** A text of a class is compiled, without comments. The variables of the class get
other names; a name that stands before the dot of a call and is that of a class stays. Then the
renamed class has a text, and every text of it is compiled to the same code. -/
theorem compile_is_invariant_under_renaming (options : Options)
    (hannotate : options.annotate = false) (unit source text : String) (c : ClassDec)
    (hscans : Scans source c.tokens) (hcompile : compile options unit source = .ok text)
    (r : Renaming) (hkeep : ∀ name, c.CallsClass name → r.newName name = name) :
    (∃ source', Scans source' (c.rename r.newName).tokens) ∧
      ∀ unit' source', Scans source' (c.rename r.newName).tokens →
        compile options unit' source' = .ok text := by
  have htokens : ∀ k ∈ c.tokens, k.WellFormed := fun _ => hscans.wellFormed
  refine ⟨⟨_, scans_spelled ((c.renamed_tokens r.newName).wellFormed htokens)⟩, ?_⟩
  intro unit' source' hscans'
  obtain ⟨hadmitted, rfl⟩ := (compile_iff_admitted hscans).mp hcompile
  obtain ⟨hvalid, hdistinct⟩ := (ClassDec.admitted_iff hscans).mp hadmitted
  refine (compile_iff_admitted hscans').mpr ⟨(ClassDec.admitted_iff hscans').mpr ⟨?_, ?_⟩, ?_⟩
  · exact ClassDec.valid_rename htokens hvalid
  · exact fun hstrict => ClassDec.distinct_rename htokens (hdistinct hstrict)
  · rw [hannotate, ClassDec.lines_false, ClassDec.lines_false,
      ClassDec.code_rename htokens hkeep]

/-- Two names are exchanged. -/
def Renaming.swap (m n : String) (hm : IsName m) (hn : IsName n) : Renaming where
  newName := Equiv.swap m n
  isName {name} hname := by
    rw [Equiv.swap_apply_def]
    split_ifs
    · exact hn
    · exact hm
    · exact hname
  injective _ _ h := (Equiv.swap m n).injective h

/-- The names of the array and of the index of `scaler` are exchanged. -/
def scalerSwap : Renaming := Renaming.swap "a" "i" (by decide) (by decide)

/-- The text of the renamed class. -/
def swappedScalerText : String :=
  "class Scaler \x7b field int k; method void all(Array i) \x7b var int a; " ++
  "while (a < i.size()) \x7b let i[a] = i[a] * -k; let a = a + 1; \x7d " ++
  "do Output.show(\"ok\"); return; \x7d \x7d"

/-- Before a dot, `scaler` has a variable and a class. -/
theorem callsClass_scaler (name : String) : scaler.CallsClass name ↔ name = "Output" := by
  constructor
  · rintro ⟨d, hd, hname, hclass⟩
    obtain rfl := List.mem_singleton.mp hd
    obtain rfl | rfl : name = "a" ∨ name = "Output" := by
      simpa [Statement.blockReceivers, Statement.receivers, Expression.receivers,
        Expression.restReceivers, Term.receivers, Call.receivers, Call.argumentReceivers]
        using hname
    · exact absurd (by decide) hclass
    · rfl
  · rintro rfl
    exact ⟨_, List.mem_singleton_self _, by decide, by decide⟩

theorem swapped_scaler_compiles_alike :
    Scans (spelled scaler.tokens) scaler.tokens ∧
      compile {} "Scaler" (spelled scaler.tokens) = .ok (Line.listing (scaler.lines false)) ∧
      (∀ name, scaler.CallsClass name → scalerSwap.newName name = name) ∧
      compile {} "Scaler" swappedScalerText = .ok (Line.listing (scaler.lines false)) := by
  have hscans : Scans (spelled scaler.tokens) scaler.tokens := scans_spelled (by decide +kernel)
  have hcompile : compile {} "Scaler" (spelled scaler.tokens) =
      .ok (Line.listing (scaler.lines false)) :=
    compile_of_scans "Scaler" ((ClassDec.admitted_iff hscans).mpr ⟨by decide, by simp⟩) hscans
  have hkeep : ∀ name, scaler.CallsClass name → scalerSwap.newName name = name := by
    intro name hname
    obtain rfl := (callsClass_scaler name).mp hname
    decide
  obtain ⟨-, hall⟩ := compile_is_invariant_under_renaming {} rfl "Scaler" _ _ scaler
    hscans hcompile scalerSwap hkeep
  exact ⟨hscans, hcompile, hkeep,
    hall "Scaler" swappedScalerText (scans_of_line 1 (by decide +kernel))⟩

end Jack
