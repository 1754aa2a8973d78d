import Mathlib.Data.List.Nodup
import Std.Data.String.ToNat
import Jack.Proofs.Machine.Basic
import Jack.Proofs.Syntax.Code

/-!
# Labels are unique

A jump goes to the first label of its name, so the code of a subroutine must define no name twice.

1. `labelsIn` lists the names that code defines; where they differ, a jump to a label that stands in
   a program leads there (`idxOf?_label`).
2. The code of an expression is straight: it defines no label and does not jump (`Straight`).
3. The labels of statements are named by a mark and a number (`Statement.marks`). Every number is
   used by one statement only, since it lies between the numbers left before and after the
   statement (`Statement.mem_marks`).
4. Marks and numbers can be read off a name (`Environment.label_inj`), so the names in a subroutine
   are distinct too (`SubroutineDec.nodup_labelsIn`).
-/

namespace Jack

/-! ## Labels in code -/

/-- The name that an instruction defines as a label. -/
def Instruction.label? : Instruction → Option String
  | .label name => some name
  | _ => none

/-- The names that code defines as labels. -/
def labelsIn (code : List Instruction) : List String := code.filterMap Instruction.label?

@[simp] theorem labelsIn_nil : labelsIn [] = [] := rfl

@[simp] theorem labelsIn_append (code rest : List Instruction) :
    labelsIn (code ++ rest) = labelsIn code ++ labelsIn rest := List.filterMap_append

@[simp] theorem labelsIn_cons (i : Instruction) (rest : List Instruction) :
    labelsIn (i :: rest) = i.label?.toList ++ labelsIn rest := by
  unfold labelsIn
  rw [List.filterMap_cons]
  cases i.label? <;> rfl

/-- A jump leads to the label that stands in the program. -/
theorem idxOf?_label {program rest : List Instruction} {place : Nat} {name : String}
    (hprogram : (labelsIn program).Nodup) (h : Stands program place (.label name :: rest)) :
    program.idxOf? (.label name) = some place := by
  obtain ⟨before, after, rfl, rfl⟩ := h
  have hbefore : .label name ∉ before := by
    intro hmem
    have hname : name ∈ labelsIn before := List.mem_filterMap.mpr ⟨_, hmem, rfl⟩
    rw [List.append_assoc, List.cons_append, labelsIn_append, labelsIn_cons] at hprogram
    exact (List.nodup_append.mp hprogram).2.2 name hname name (by simp [Instruction.label?]) rfl
  rw [List.idxOf?_eq_some_iff]
  refine ⟨by simp, by simp, fun j hj hlabel => hbefore ?_⟩
  simp only [List.append_assoc, List.getElem_append_left hj] at hlabel
  exact hlabel ▸ List.getElem_mem hj

/-! ## Expressions -/

/-- The name that an instruction jumps to. -/
def Instruction.target? : Instruction → Option String
  | .goto name | .ifGoto name => some name
  | _ => none

/-- Code that defines no label and does not jump. -/
def Straight (code : List Instruction) : Prop :=
  ∀ i ∈ code, i.label? = none ∧ i.target? = none

@[simp] theorem straight_nil : Straight [] := List.forall_mem_nil _

@[simp] theorem straight_cons (i : Instruction) (rest : List Instruction) :
    Straight (i :: rest) ↔ (i.label? = none ∧ i.target? = none) ∧ Straight rest :=
  List.forall_mem_cons

@[simp] theorem straight_append (code rest : List Instruction) :
    Straight (code ++ rest) ↔ Straight code ∧ Straight rest := List.forall_mem_append

theorem Straight.labelsIn {code : List Instruction} (h : Straight code) : labelsIn code = [] :=
  List.filterMap_eq_nil_iff.mpr fun i hi => (h i hi).1

section Expressions

variable (env : Environment)

theorem straight_read (name : String) : Straight (env.read name) := by
  unfold Environment.read
  cases env.find? name <;> simp [Instruction.label?, Instruction.target?]

theorem straight_write (name : String) : Straight (env.write name) := by
  unfold Environment.write
  cases env.find? name <;> simp [Instruction.label?, Instruction.target?]

theorem straight_receiver (r : Option String) : Straight (env.receiver r) := by
  cases r with
  | none => simp [Environment.receiver, Instruction.label?, Instruction.target?]
  | some name => exact straight_read env name

theorem straight_stringText (characters : List Char) : Straight (stringText characters) := by
  unfold stringText
  induction characters with
  | nil => simp [Instruction.label?, Instruction.target?]
  | cons c rest ih => simpa [Instruction.label?, Instruction.target?] using ih

mutual

theorem Term.straight : ∀ t : Term, Straight (t.code env)
  | .integer _ _ => by simp [Term.code, Instruction.label?, Instruction.target?]
  | .string characters => straight_stringText characters.toList
  | .word w => by
    cases w <;> simp [Term.code, ValueWord.code, Instruction.label?, Instruction.target?]
  | .var name => straight_read env name
  | .element name index => by
    simp [Term.code, straight_read, Expression.straight index, Instruction.label?,
      Instruction.target?]
  | .call c => Call.straight c
  | .parenthesized inner => Expression.straight inner
  | .unary op operand => by
    cases op <;> simp [Term.code, Term.straight operand, UnaryOperator.code, Instruction.label?,
      Instruction.target?]

theorem Expression.straight : ∀ e : Expression, Straight (e.code env)
  | .mk first rest => by
    rw [Expression.code, straight_append]
    exact ⟨Term.straight first, Expression.straight_rest rest⟩

theorem Expression.straight_rest : ∀ rest : List (BinaryOperator × Term),
    Straight (Expression.restCode env rest)
  | [] => straight_nil
  | (op, operand) :: rest => by
    have hop : op.code.label? = none ∧ op.code.target? = none := by
      cases op <;> exact ⟨rfl, rfl⟩
    rw [Expression.restCode, straight_append, straight_cons]
    exact ⟨Term.straight operand, hop, Expression.straight_rest rest⟩

theorem Call.straight : ∀ c : Call, Straight (c.code env)
  | .mk receiver name arguments => by
    simp [Call.code, straight_receiver, Call.straight_arguments arguments, Instruction.label?,
      Instruction.target?]

theorem Call.straight_arguments : ∀ arguments : List Expression,
    Straight (Call.argumentCode env arguments)
  | [] => straight_nil
  | e :: more => by
    rw [Call.argumentCode, straight_append]
    exact ⟨Expression.straight e, Call.straight_arguments more⟩

end

@[simp] theorem labelsIn_read (name : String) : labelsIn (env.read name) = [] :=
  (straight_read env name).labelsIn

@[simp] theorem labelsIn_write (name : String) : labelsIn (env.write name) = [] :=
  (straight_write env name).labelsIn

@[simp] theorem Expression.labelsIn_code (e : Expression) : labelsIn (e.code env) = [] :=
  (e.straight env).labelsIn

@[simp] theorem Call.labelsIn_code (c : Call) : labelsIn (c.code env) = [] :=
  (c.straight env).labelsIn

end Expressions

/-! ## Statements -/

/-- The number left for a mark. -/
def Labels.next (n : Labels) : Mark → Nat
  | .whileExp | .whileEnd => n.loops
  | .ifFalse | .ifEnd => n.branches

mutual

/-- The marks and the numbers of the labels that a statement defines. -/
def Statement.marks : Statement → Labels → List (Mark × Nat)
  | .if_ _ yes, n =>
    Statement.blockMarks yes { n with branches := n.branches + 1 } ++ [(.ifFalse, n.branches)]
  | .ifElse _ yes no, n =>
    Statement.blockMarks yes { n with branches := n.branches + 1 } ++ (.ifFalse, n.branches) ::
      (Statement.blockMarks no (Statement.blockAfter yes { n with branches := n.branches + 1 }) ++
        [(.ifEnd, n.branches)])
  | .while_ _ body, n =>
    (.whileExp, n.loops) :: (Statement.blockMarks body { n with loops := n.loops + 1 } ++
      [(.whileEnd, n.loops)])
  | .let_ _ _, _ | .letElement _ _ _, _ | .do_ _, _ | .return_ _, _ => []

/-- The marks and the numbers of the labels that statements in a row define. -/
def Statement.blockMarks : List Statement → Labels → List (Mark × Nat)
  | [], _ => []
  | t :: rest, n => t.marks n ++ Statement.blockMarks rest (t.after n)

end

section Statements

variable (env : Environment)

/-- The name of a label, by its mark and its number. -/
def Environment.labelOf (p : Mark × Nat) : String := env.label p.1.text p.2

mutual

theorem Statement.labelsIn_code : ∀ (t : Statement) (n : Labels),
    labelsIn (t.code env n) = (t.marks n).map env.labelOf
  | .let_ name value, n => by simp [Statement.code, Statement.marks]
  | .letElement name index value, n => by
    simp [Statement.code, Statement.marks, Instruction.label?]
  | .if_ condition yes, n => by
    simp [Statement.code, Statement.marks, Instruction.label?, Statement.labelsIn_blockCode yes,
      Environment.labelOf, Mark.text]
  | .ifElse condition yes no, n => by
    simp [Statement.code, Statement.marks, Instruction.label?, Statement.labelsIn_blockCode yes,
      Statement.labelsIn_blockCode no, Environment.labelOf, Mark.text]
  | .while_ condition body, n => by
    simp [Statement.code, Statement.marks, Instruction.label?, Statement.labelsIn_blockCode body,
      Environment.labelOf, Mark.text]
  | .do_ call, n => by simp [Statement.code, Statement.marks, Instruction.label?]
  | .return_ none, n => by simp [Statement.code, Statement.marks, Instruction.label?]
  | .return_ (some value), n => by simp [Statement.code, Statement.marks, Instruction.label?]

theorem Statement.labelsIn_blockCode : ∀ (ts : List Statement) (n : Labels),
    labelsIn (Statement.blockCode env ts n) = (Statement.blockMarks ts n).map env.labelOf
  | [], n => rfl
  | t :: rest, n => by
    rw [Statement.blockCode, Statement.blockMarks, labelsIn_append, List.map_append,
      Statement.labelsIn_code t n, Statement.labelsIn_blockCode rest (t.after n)]

end

end Statements

mutual

/-- The numbers left do not fall. -/
theorem Statement.next_le_after : ∀ (t : Statement) (n : Labels) (m : Mark),
    n.next m ≤ (t.after n).next m
  | .if_ _ yes, n, m => by
    have h := Statement.next_le_blockAfter yes { n with branches := n.branches + 1 } m
    rw [Statement.after]
    cases m <;> simp only [Labels.next] at h ⊢ <;> omega
  | .ifElse _ yes no, n, m => by
    have h := Statement.next_le_blockAfter yes { n with branches := n.branches + 1 } m
    have h' := Statement.next_le_blockAfter no
      (Statement.blockAfter yes { n with branches := n.branches + 1 }) m
    rw [Statement.after]
    cases m <;> simp only [Labels.next] at h h' ⊢ <;> omega
  | .while_ _ body, n, m => by
    have h := Statement.next_le_blockAfter body { n with loops := n.loops + 1 } m
    rw [Statement.after]
    cases m <;> simp only [Labels.next] at h ⊢ <;> omega
  | .let_ _ _, _, _ | .letElement _ _ _, _, _ | .do_ _, _, _ | .return_ _, _, _ => Nat.le_refl _

theorem Statement.next_le_blockAfter : ∀ (ts : List Statement) (n : Labels) (m : Mark),
    n.next m ≤ (Statement.blockAfter ts n).next m
  | [], _, _ => Nat.le_refl _
  | t :: rest, n, m =>
    Nat.le_trans (Statement.next_le_after t n m) (Statement.next_le_blockAfter rest (t.after n) m)

end

mutual

/-- The numbers of a statement's labels were left before it and are no longer left after it. -/
theorem Statement.mem_marks : ∀ (t : Statement) (n : Labels) {m : Mark} {k : Nat},
    (m, k) ∈ t.marks n → n.next m ≤ k ∧ k < (t.after n).next m
  | .if_ _ yes, n, m, k, h => by
    have hle := Statement.next_le_blockAfter yes { n with branches := n.branches + 1 } m
    rw [Statement.after]
    obtain h | h := List.mem_append.mp h
    · have hyes := Statement.mem_blockMarks yes _ h
      cases m <;> simp only [Labels.next] at hyes ⊢ <;> omega
    · obtain ⟨rfl, rfl⟩ : m = .ifFalse ∧ k = n.branches := by simpa using h
      simp only [Labels.next] at hle ⊢
      omega
  | .ifElse _ yes no, n, m, k, h => by
    have hle := Statement.next_le_blockAfter yes { n with branches := n.branches + 1 } m
    have hle' := Statement.next_le_blockAfter no
      (Statement.blockAfter yes { n with branches := n.branches + 1 }) m
    rw [Statement.after]
    simp only [Statement.marks, List.mem_append, List.mem_cons, List.not_mem_nil, or_false,
      Prod.mk.injEq] at h
    obtain h | ⟨rfl, rfl⟩ | h | ⟨rfl, rfl⟩ := h
    · have hyes := Statement.mem_blockMarks yes _ h
      cases m <;> simp only [Labels.next] at hyes hle' ⊢ <;> omega
    · simp only [Labels.next] at hle hle' ⊢
      omega
    · have hno := Statement.mem_blockMarks no _ h
      cases m <;> simp only [Labels.next] at hno hle ⊢ <;> omega
    · simp only [Labels.next] at hle hle' ⊢
      omega
  | .while_ _ body, n, m, k, h => by
    have hle := Statement.next_le_blockAfter body { n with loops := n.loops + 1 } m
    rw [Statement.after]
    simp only [Statement.marks, List.mem_append, List.mem_cons, List.not_mem_nil, or_false,
      Prod.mk.injEq] at h
    obtain ⟨rfl, rfl⟩ | h | ⟨rfl, rfl⟩ := h
    · simp only [Labels.next] at hle ⊢
      omega
    · have hbody := Statement.mem_blockMarks body _ h
      cases m <;> simp only [Labels.next] at hbody ⊢ <;> omega
    · simp only [Labels.next] at hle ⊢
      omega
  | .let_ _ _, _, _, _, h | .letElement _ _ _, _, _, _, h | .do_ _, _, _, _, h
  | .return_ _, _, _, _, h => by
    simp [Statement.marks] at h

theorem Statement.mem_blockMarks : ∀ (ts : List Statement) (n : Labels) {m : Mark} {k : Nat},
    (m, k) ∈ Statement.blockMarks ts n → n.next m ≤ k ∧ k < (Statement.blockAfter ts n).next m
  | [], _, _, _, h => by simp [Statement.blockMarks] at h
  | t :: rest, n, m, k, h => by
    rw [Statement.blockAfter]
    obtain h | h := List.mem_append.mp h
    · have ht := Statement.mem_marks t n h
      have hle := Statement.next_le_blockAfter rest (t.after n) m
      omega
    · have hrest := Statement.mem_blockMarks rest _ h
      have hle := Statement.next_le_after t n m
      omega

end

/-- A number that was taken before is not taken again. -/
theorem Statement.notMem_blockMarks {ts : List Statement} {n : Labels} {m : Mark} {k : Nat}
    (h : k < n.next m) : (m, k) ∉ Statement.blockMarks ts n := by
  intro hmem
  have := (Statement.mem_blockMarks ts n hmem).1
  omega

mutual

/-- The labels of a statement are distinct. -/
theorem Statement.nodup_marks : ∀ (t : Statement) (n : Labels), (t.marks n).Nodup
  | .if_ _ yes, n => by
    have hfalse : (.ifFalse, n.branches) ∉
        Statement.blockMarks yes { n with branches := n.branches + 1 } :=
      Statement.notMem_blockMarks (Nat.lt_succ_self _)
    rw [Statement.marks, ← List.concat_eq_append, List.nodup_concat]
    exact ⟨hfalse, Statement.nodup_blockMarks yes _⟩
  | .ifElse _ yes no, n => by
    have hle := Statement.next_le_blockAfter yes { n with branches := n.branches + 1 }
    have hfalse : (.ifFalse, n.branches) ∉
        Statement.blockMarks yes { n with branches := n.branches + 1 } :=
      Statement.notMem_blockMarks (Nat.lt_succ_self _)
    have hend : (.ifEnd, n.branches) ∉
        Statement.blockMarks yes { n with branches := n.branches + 1 } :=
      Statement.notMem_blockMarks (Nat.lt_succ_self _)
    have hfalse' : (.ifFalse, n.branches) ∉ Statement.blockMarks no
        (Statement.blockAfter yes { n with branches := n.branches + 1 }) :=
      Statement.notMem_blockMarks (Nat.lt_of_succ_le (hle .ifFalse))
    have hend' : (.ifEnd, n.branches) ∉ Statement.blockMarks no
        (Statement.blockAfter yes { n with branches := n.branches + 1 }) :=
      Statement.notMem_blockMarks (Nat.lt_of_succ_le (hle .ifEnd))
    have hno : (Statement.blockMarks no (Statement.blockAfter yes
        { n with branches := n.branches + 1 }) ++ [(Mark.ifEnd, n.branches)]).Nodup := by
      rw [← List.concat_eq_append, List.nodup_concat]
      exact ⟨hend', Statement.nodup_blockMarks no _⟩
    rw [Statement.marks, List.nodup_append, List.nodup_cons]
    refine ⟨Statement.nodup_blockMarks yes _, ⟨by simp [hfalse'], hno⟩, ?_⟩
    rintro ⟨m, k⟩ hyes ⟨m', k'⟩ hrest heq
    obtain ⟨rfl, rfl⟩ := Prod.mk.inj heq
    simp only [List.mem_cons, List.mem_append, List.not_mem_nil, or_false] at hrest
    obtain hrest | hrest | hrest := hrest
    · exact hfalse (hrest ▸ hyes)
    · have h := Statement.mem_blockMarks yes _ hyes
      have h' := Statement.mem_blockMarks no _ hrest
      omega
    · exact hend (hrest ▸ hyes)
  | .while_ _ body, n => by
    have hexp : (.whileExp, n.loops) ∉
        Statement.blockMarks body { n with loops := n.loops + 1 } :=
      Statement.notMem_blockMarks (Nat.lt_succ_self _)
    have hend : (.whileEnd, n.loops) ∉
        Statement.blockMarks body { n with loops := n.loops + 1 } :=
      Statement.notMem_blockMarks (Nat.lt_succ_self _)
    rw [Statement.marks, List.nodup_cons, ← List.concat_eq_append, List.nodup_concat]
    exact ⟨by simp [hexp], hend, Statement.nodup_blockMarks body _⟩
  | .let_ _ _, _ | .letElement _ _ _, _ | .do_ _, _ | .return_ _, _ => List.nodup_nil

theorem Statement.nodup_blockMarks : ∀ (ts : List Statement) (n : Labels),
    (Statement.blockMarks ts n).Nodup
  | [], _ => List.nodup_nil
  | t :: rest, n => by
    rw [Statement.blockMarks, List.nodup_append]
    refine ⟨Statement.nodup_marks t n, Statement.nodup_blockMarks rest _, ?_⟩
    rintro ⟨m, k⟩ ht ⟨m', k'⟩ hrest heq
    obtain ⟨rfl, rfl⟩ := Prod.mk.inj heq
    have h := Statement.mem_marks t n ht
    have h' := Statement.mem_blockMarks rest _ hrest
    omega

end

/-! ## Subroutines -/

/-- The mark and the number of a label can be read off its name. -/
theorem Environment.label_inj (env : Environment) {m m' : Mark} {k k' : Nat}
    (h : env.label m.text k = env.label m'.text k') : m = m' ∧ k = k' := by
  have h : env.subroutine ++ "$" ++ (m.text ++ toString k) =
      env.subroutine ++ "$" ++ (m'.text ++ toString k') := by
    rw [← String.append_assoc, ← String.append_assoc]
    exact h
  rw [String.append_right_inj] at h
  have hmark : m = m' := by
    have hlists := congrArg String.toList h
    cases m <;> cases m' <;> simp [Mark.text, String.toList_append] at hlists ⊢
  subst hmark
  rw [String.append_right_inj] at h
  exact ⟨rfl, Nat.repr_inj.mp h⟩

theorem SubroutineDec.straight_entry (c : ClassDec) (d : SubroutineDec) :
    Straight (d.entry c) := by
  unfold entry
  cases d.kind <;> simp [Instruction.label?, Instruction.target?]

/-- The labels of a subroutine are those of its statements. -/
theorem SubroutineDec.labelsIn_code (c : ClassDec) (d : SubroutineDec) :
    labelsIn (d.code c) = (Statement.blockMarks d.body {}).map (d.environment c).labelOf := by
  rw [code, labelsIn_cons, labelsIn_append, (d.straight_entry c).labelsIn, bodyCode,
    Statement.labelsIn_blockCode]
  rfl

/-- **Labels.** The code of a subroutine defines no label twice. -/
theorem SubroutineDec.nodup_labelsIn (c : ClassDec) (d : SubroutineDec) :
    (labelsIn (d.code c)).Nodup := by
  have hinj : Function.Injective (d.environment c).labelOf := by
    rintro ⟨m, k⟩ ⟨m', k'⟩ h
    obtain ⟨rfl, rfl⟩ := (d.environment c).label_inj h
    rfl
  rw [d.labelsIn_code c]
  exact (Statement.nodup_blockMarks d.body {}).map hinj

end Jack
