import Jack.Proofs.Language
import Jack.Proofs.Syntax.Unambiguous
import Jack.Proofs.Token.Layout

/-!
# The blocks of an output

The output of a text that compiles is a row of blocks, each of which starts with a `function` line.

1. `Run.code` are the instructions that a run writes, without the comments; `functionBlocks` are the
   blocks of code.
2. `Environment.Emits` lists the instructions that the code of statements may hold, and
   `Environment.Computes` those of expressions. Recursion on the tree shows this once for all
   (`Statement.emits`), and what a single instruction of the output can be is read off the lists.
3. None of them is a `function`, so the blocks of the output are the subroutines of the one class
   that was compiled (`exists_class`).
-/

namespace Jack

/-! ## Blocks -/

/-- The instructions written, without the comments. -/
def Run.code (r : Run) : List Instruction := r.lines.filterMap Line.instruction?

/-- Whether the instruction starts a block. -/
def Instruction.opens : Instruction → Bool
  | .function _ _ => true
  | _ => false

/-- The blocks of code, each from a `function` up to the next one or to the end. -/
def functionBlocks : List Instruction → List (List Instruction)
  | [] => []
  | i :: rest =>
    if i.opens then (i :: rest.takeWhile fun j => !j.opens) :: functionBlocks rest
    else functionBlocks rest

/-- Code without a `function` adds no block. -/
theorem functionBlocks_append {code : List Instruction} (h : ∀ i ∈ code, i.opens = false)
    (rest : List Instruction) : functionBlocks (code ++ rest) = functionBlocks rest := by
  induction code with
  | nil => rfl
  | cons i code ih =>
    have hi := h i (List.mem_cons_self ..)
    rw [List.cons_append, functionBlocks, if_neg (by simp [hi])]
    exact ih fun j hj => h j (List.mem_cons_of_mem _ hj)

/-- A `function` and what follows it are a block. -/
theorem functionBlocks_cons {head : Instruction} {body rest : List Instruction}
    (hhead : head.opens = true) (hbody : ∀ i ∈ body, i.opens = false)
    (hrest : ∀ i ∈ rest.head?, i.opens = true) :
    functionBlocks (head :: body ++ rest) = (head :: body) :: functionBlocks rest := by
  have hall : ∀ i ∈ body, (!i.opens) = true := fun i hi => by rw [hbody i hi]; rfl
  have hstop : (rest.takeWhile fun i => !i.opens) = [] := by
    cases rest with
    | nil => rfl
    | cons i rest => simp [hrest i rfl]
  rw [List.cons_append, functionBlocks, if_pos hhead, List.takeWhile_append_of_pos hall, hstop,
    List.append_nil, functionBlocks_append hbody]

/-! ## Instructions of a body -/

/-- The instructions that the code of an expression may hold, given what names mean. -/
inductive Environment.Computes (env : Environment) : Instruction → Prop
  | constant {n : Nat} (h : n ≤ maxConstant) : env.Computes (.push .constant n)
  | read {name : String} {v : Variable} (h : env.find? name = some v) :
      env.Computes (.push v.kind.segment v.index)
  | pushReceiver : env.Computes (.push .pointer 0)
  | popTarget : env.Computes (.pop .pointer 1)
  | pushIndirect : env.Computes (.push .that 0)
  | operate (operation : Operation) : env.Computes (.operate operation)
  | call (name : String) (count : Nat) : env.Computes (.call name count)

/-- The instructions that the code of statements may hold. -/
inductive Environment.Emits (env : Environment) : Instruction → Prop
  | compute {i : Instruction} (h : env.Computes i) : env.Emits i
  | write {name : String} {v : Variable} (h : env.find? name = some v) :
      env.Emits (.pop v.kind.segment v.index)
  | popIndirect : env.Emits (.pop .that 0)
  | pushScratch : env.Emits (.push .temp 0)
  | popScratch : env.Emits (.pop .temp 0)
  | label (name : String) : env.Emits (.label name)
  | goto (name : String) : env.Emits (.goto name)
  | ifGoto (name : String) : env.Emits (.ifGoto name)
  | return_ : env.Emits .return_

attribute [simp] Environment.Computes.pushReceiver Environment.Computes.popTarget
  Environment.Computes.pushIndirect Environment.Computes.operate Environment.Computes.call
  Environment.Emits.popIndirect Environment.Emits.pushScratch Environment.Emits.popScratch
  Environment.Emits.label Environment.Emits.goto Environment.Emits.ifGoto
  Environment.Emits.return_

@[simp] theorem Environment.Emits.operate (env : Environment) (operation : Operation) :
    env.Emits (.operate operation) := .compute (.operate operation)

@[simp] theorem Environment.Emits.popTarget (env : Environment) : env.Emits (.pop .pointer 1) :=
  .compute .popTarget

theorem Environment.Emits.opens {env : Environment} {i : Instruction} (h : env.Emits i) :
    i.opens = false := by
  cases h with
  | compute h => cases h <;> rfl
  | _ => rfl

section Emits

variable (env : Environment)

theorem Environment.computes_read (name : String) : ∀ i ∈ env.read name, env.Computes i := by
  unfold Environment.read
  cases h : env.find? name with
  | none => simp
  | some v => simpa using .read h

theorem Environment.emits_write (name : String) : ∀ i ∈ env.write name, env.Emits i := by
  unfold Environment.write
  cases h : env.find? name with
  | none => simp
  | some v => simpa using .write h

theorem Environment.computes_receiver (r : Option String) :
    ∀ i ∈ env.receiver r, env.Computes i := by
  cases r with
  | none => simp [Environment.receiver]
  | some name => exact env.computes_read name

theorem computes_stringText {characters : List Char} (hlength : characters.length ≤ maxConstant)
    (hcodes : ∀ c ∈ characters, c.toNat ≤ maxConstant) :
    ∀ i ∈ stringText characters, env.Computes i := by
  have hpieces : ∀ i ∈ characters.flatMap fun c =>
      [Instruction.push .constant c.toNat, .call "String.appendChar" 2], env.Computes i := by
    intro i hi
    obtain ⟨c, hc, hi⟩ := List.mem_flatMap.mp hi
    obtain rfl | rfl : i = .push .constant c.toNat ∨ i = .call "String.appendChar" 2 := by
      simpa using hi
    · exact .constant (hcodes c hc)
    · exact .call _ _
  unfold stringText
  rw [List.forall_mem_cons, List.forall_mem_cons]
  exact ⟨.constant hlength, .call _ _, hpieces⟩

/-- The characters of a string have small codes. -/
theorem toNat_le_of_wellFormed {characters : String}
    (h : (TokenKind.string characters).WellFormed) :
    ∀ c ∈ characters.toList, c.toNat ≤ maxConstant := by
  intro c hc
  have hchar := List.all_eq_true.mp h c hc
  simp only [Cursor.isStringChar, Bool.and_eq_true, decide_eq_true_eq] at hchar
  unfold maxConstant
  omega

theorem forall_mem_enclosed {P : TokenKind → Prop} {opening closing : Symbol}
    {ks : List TokenKind} (h : ∀ k ∈ enclosed opening closing ks, P k) : ∀ k ∈ ks, P k :=
  fun k hk => h k (List.mem_cons_of_mem _ (List.mem_append_left _ hk))

mutual

theorem Term.computes : ∀ t : Term, t.Valid env → (∀ k ∈ t.tokens, k.WellFormed) →
    ∀ i ∈ t.code env, env.Computes i
  | .integer value digits, _, htokens => by
    have hvalue := htokens (.integer value digits) (List.mem_singleton_self _)
    rw [Term.code, List.forall_mem_singleton]
    exact .constant hvalue.2.2.2
  | .string characters, hvalid, htokens => by
    have hcharacters := htokens (.string characters) (List.mem_singleton_self _)
    exact computes_stringText env hvalid (toNat_le_of_wellFormed hcharacters)
  | .word w, _, _ => by
    have hsmall : ∀ n ≤ 1, env.Computes (.push .constant n) := fun n hn =>
      .constant (Nat.le_trans hn (by decide))
    cases w <;> simp [Term.code, ValueWord.code, hsmall]
  | .var name, _, _ => env.computes_read name
  | .element name index, hvalid, htokens => by
    rw [Term.tokens, List.forall_mem_cons] at htokens
    have hindex := Expression.computes index hvalid.2 (forall_mem_enclosed htokens.2)
    rw [Term.code, List.forall_mem_append, List.forall_mem_append]
    exact ⟨⟨env.computes_read name, hindex⟩, by simp⟩
  | .call c, hvalid, htokens => Call.computes c hvalid htokens
  | .parenthesized inner, hvalid, htokens =>
    Expression.computes inner hvalid (forall_mem_enclosed htokens)
  | .unary op operand, hvalid, htokens => by
    rw [Term.tokens, List.forall_mem_cons] at htokens
    have hoperand := Term.computes operand hvalid htokens.2
    rw [Term.code, List.forall_mem_append]
    exact ⟨hoperand, by cases op <;> simp [UnaryOperator.code]⟩

theorem Expression.computes : ∀ e : Expression, e.Valid env → (∀ k ∈ e.tokens, k.WellFormed) →
    ∀ i ∈ e.code env, env.Computes i
  | .mk first rest, hvalid, htokens => by
    rw [Expression.tokens, List.forall_mem_append] at htokens
    rw [Expression.code, List.forall_mem_append]
    exact ⟨Term.computes first hvalid.1 htokens.1, Expression.computes_rest rest hvalid.2 htokens.2⟩

theorem Expression.computes_rest : ∀ rest : List (BinaryOperator × Term),
    Expression.RestValid env rest → (∀ k ∈ Expression.restTokens rest, k.WellFormed) →
    ∀ i ∈ Expression.restCode env rest, env.Computes i
  | [], _, _ => by simp [Expression.restCode]
  | (op, operand) :: rest, hvalid, htokens => by
    rw [Expression.restTokens, List.forall_mem_cons, List.forall_mem_append] at htokens
    have hoperand := Term.computes operand hvalid.1 htokens.2.1
    have hop : env.Computes op.code := by cases op <;> simp [BinaryOperator.code]
    rw [Expression.restCode, List.forall_mem_append, List.forall_mem_cons]
    exact ⟨hoperand, hop, Expression.computes_rest rest hvalid.2 htokens.2.2⟩

theorem Call.computes : ∀ c : Call, c.Valid env → (∀ k ∈ c.tokens, k.WellFormed) →
    ∀ i ∈ c.code env, env.Computes i
  | .mk receiver name arguments, hvalid, htokens => by
    rw [Call.tokens, List.forall_mem_append] at htokens
    have harguments := Call.computes_arguments arguments hvalid.1 (forall_mem_enclosed htokens.2)
    rw [Call.code, List.forall_mem_append, List.forall_mem_append]
    exact ⟨⟨env.computes_receiver receiver, harguments⟩, by simp⟩

theorem Call.computes_arguments : ∀ arguments : List Expression, Call.ArgumentsValid env arguments →
    (∀ k ∈ Call.argumentTokens arguments, k.WellFormed) →
    ∀ i ∈ Call.argumentCode env arguments, env.Computes i
  | [], _, _ => by simp [Call.argumentCode]
  | e :: more, hvalid, htokens => by
    rw [Call.argumentTokens, List.forall_mem_append] at htokens
    rw [Call.argumentCode, List.forall_mem_append]
    exact ⟨Expression.computes e hvalid.1 htokens.1, Call.computes_more more hvalid.2 htokens.2⟩

theorem Call.computes_more : ∀ more : List Expression, Call.ArgumentsValid env more →
    (∀ k ∈ Call.moreTokens more, k.WellFormed) →
    ∀ i ∈ Call.argumentCode env more, env.Computes i
  | [], _, _ => by simp [Call.argumentCode]
  | e :: more, hvalid, htokens => by
    rw [Call.moreTokens, List.forall_mem_cons, List.forall_mem_append] at htokens
    rw [Call.argumentCode, List.forall_mem_append]
    exact ⟨Expression.computes e hvalid.1 htokens.2.1, Call.computes_more more hvalid.2 htokens.2.2⟩

end

theorem Expression.emits (e : Expression) (hvalid : e.Valid env)
    (htokens : ∀ k ∈ e.tokens, k.WellFormed) : ∀ i ∈ e.code env, env.Emits i :=
  fun i hi => .compute (e.computes env hvalid htokens i hi)

theorem Call.emits (c : Call) (hvalid : c.Valid env) (htokens : ∀ k ∈ c.tokens, k.WellFormed) :
    ∀ i ∈ c.code env, env.Emits i :=
  fun i hi => .compute (c.computes env hvalid htokens i hi)

mutual

/-- **Statements.** The code of a statement holds no other instructions than those listed. -/
theorem Statement.emits : ∀ (t : Statement) (n : Labels), t.Valid env →
    (∀ k ∈ t.tokens, k.WellFormed) → ∀ i ∈ t.code env n, env.Emits i
  | .let_ name value, n, hvalid, htokens => by
    simp only [Statement.tokens, List.forall_mem_cons, List.forall_mem_append] at htokens
    rw [Statement.code, List.forall_mem_append]
    exact ⟨Expression.emits env value hvalid.2 htokens.2.2.2.1, env.emits_write name⟩
  | .letElement name index value, n, hvalid, htokens => by
    simp only [Statement.tokens, List.forall_mem_cons, List.forall_mem_append] at htokens
    obtain ⟨-, -, hindex, -, hvalue, -⟩ := htokens
    have hread : ∀ i ∈ env.read name, env.Emits i := fun i hi =>
      .compute (env.computes_read name i hi)
    have hindex := Expression.emits env index hvalid.2.1 (forall_mem_enclosed hindex)
    have hvalue := Expression.emits env value hvalid.2.2 hvalue
    simp only [Statement.code, List.forall_mem_append]
    exact ⟨⟨⟨⟨hread, hindex⟩, by simp⟩, hvalue⟩, by simp⟩
  | .if_ condition yes, n, hvalid, htokens => by
    simp only [Statement.tokens, List.forall_mem_cons, List.forall_mem_append] at htokens
    obtain ⟨-, hcondition, hyes⟩ := htokens
    have hcondition := Expression.emits env condition hvalid.1 (forall_mem_enclosed hcondition)
    have hyes := Statement.emits_block yes { n with branches := n.branches + 1 } hvalid.2
      (forall_mem_enclosed hyes)
    simp only [Statement.code, List.forall_mem_append]
    exact ⟨⟨⟨hcondition, by simp⟩, hyes⟩, by simp⟩
  | .ifElse condition yes no, n, hvalid, htokens => by
    simp only [Statement.tokens, List.forall_mem_cons, List.forall_mem_append] at htokens
    obtain ⟨-, hcondition, hyes, -, hno⟩ := htokens
    have hcondition := Expression.emits env condition hvalid.1 (forall_mem_enclosed hcondition)
    have hyes := Statement.emits_block yes { n with branches := n.branches + 1 } hvalid.2.1
      (forall_mem_enclosed hyes)
    have hno := Statement.emits_block no
      (Statement.blockAfter yes { n with branches := n.branches + 1 }) hvalid.2.2
      (forall_mem_enclosed hno)
    simp only [Statement.code, List.forall_mem_append]
    exact ⟨⟨⟨⟨⟨hcondition, by simp⟩, hyes⟩, by simp⟩, hno⟩, by simp⟩
  | .while_ condition body, n, hvalid, htokens => by
    simp only [Statement.tokens, List.forall_mem_cons, List.forall_mem_append] at htokens
    obtain ⟨-, hcondition, hbody⟩ := htokens
    have hcondition := Expression.emits env condition hvalid.1 (forall_mem_enclosed hcondition)
    have hbody := Statement.emits_block body { n with loops := n.loops + 1 } hvalid.2
      (forall_mem_enclosed hbody)
    simp only [Statement.code, List.forall_mem_append]
    exact ⟨⟨⟨⟨by simp, hcondition⟩, by simp⟩, hbody⟩, by simp⟩
  | .do_ call, n, hvalid, htokens => by
    simp only [Statement.tokens, List.forall_mem_cons, List.forall_mem_append] at htokens
    rw [Statement.code, List.forall_mem_append]
    exact ⟨Call.emits env call hvalid htokens.2.1, by simp⟩
  | .return_ none, n, _, _ => by
    rw [Statement.code, List.forall_mem_cons, List.forall_mem_singleton]
    exact ⟨.compute (.constant (Nat.zero_le _)), .return_⟩
  | .return_ (some value), n, hvalid, htokens => by
    simp only [Statement.tokens, List.forall_mem_cons, List.forall_mem_append] at htokens
    rw [Statement.code, List.forall_mem_append]
    exact ⟨Expression.emits env value hvalid htokens.2.1, by simp⟩

theorem Statement.emits_block : ∀ (ts : List Statement) (n : Labels),
    Statement.BlockValid env ts → (∀ k ∈ Statement.blockTokens ts, k.WellFormed) →
    ∀ i ∈ Statement.blockCode env ts n, env.Emits i
  | [], n, _, _ => by simp [Statement.blockCode]
  | t :: rest, n, hvalid, htokens => by
    rw [Statement.blockTokens, List.forall_mem_append] at htokens
    rw [Statement.blockCode, List.forall_mem_append]
    exact ⟨Statement.emits t n hvalid.1 htokens.1,
      Statement.emits_block rest (t.after n) hvalid.2 htokens.2⟩

end

end Emits

/-! ## Subroutines -/

/-- The well-formed tokens of a class include those of the statements in its subroutines. -/
theorem ClassDec.wellFormed_block {c : ClassDec} {d : SubroutineDec} (hd : d ∈ c.subroutines)
    (h : ∀ k ∈ c.tokens, k.WellFormed) : ∀ k ∈ Statement.blockTokens d.body, k.WellFormed := by
  intro k hk
  have hsubroutine : k ∈ d.tokens := by
    simp only [SubroutineDec.tokens, enclosed, List.mem_cons, List.mem_append]
    tauto
  have hinside : k ∈ c.subroutines.flatMap SubroutineDec.tokens :=
    List.mem_flatMap.mpr ⟨d, hd, hsubroutine⟩
  refine h k ?_
  simp only [ClassDec.tokens, enclosed, List.mem_cons, List.mem_append]
  tauto

/-- The code of a subroutine's statements holds no other instructions than those listed. -/
theorem SubroutineDec.emits_bodyCode {c : ClassDec} {d : SubroutineDec} (hd : d ∈ c.subroutines)
    (hvalid : d.Valid c) (htokens : ∀ k ∈ c.tokens, k.WellFormed) :
    ∀ i ∈ d.bodyCode c, (d.environment c).Emits i :=
  Statement.emits_block (d.environment c) d.body {} hvalid (ClassDec.wellFormed_block hd htokens)

theorem SubroutineDec.opens_entry (c : ClassDec) (d : SubroutineDec) :
    ∀ i ∈ d.entry c, i.opens = false := by
  unfold entry
  cases d.kind <;> simp [Instruction.opens]

/-- The blocks of a class are the code of its subroutines. -/
theorem ClassDec.functionBlocks_code {c : ClassDec}
    (h : ∀ d ∈ c.subroutines, ∀ i ∈ d.bodyCode c, i.opens = false) :
    functionBlocks c.code = c.subroutines.map (SubroutineDec.code c) := by
  unfold code
  generalize c.subroutines = ds at h ⊢
  induction ds with
  | nil => rfl
  | cons d ds ih =>
    have hbody : ∀ i ∈ d.entry c ++ d.bodyCode c, i.opens = false :=
      List.forall_mem_append.mpr ⟨d.opens_entry c, h d (List.mem_cons_self ..)⟩
    have hnext : ∀ i ∈ (ds.flatMap (SubroutineDec.code c)).head?, i.opens = true := by
      cases ds with
      | nil => simp
      | cons d' ds => simp [SubroutineDec.code, Instruction.opens]
    have hlater := ih fun d' hd' => h d' (List.mem_cons_of_mem _ hd')
    rw [List.flatMap_cons, List.map_cons, SubroutineDec.code,
      functionBlocks_cons rfl hbody hnext, hlater]

/-! ## Texts that compile -/

/-- **Blocks.** A text that compiles is that of one class only. The code written is the code of this
class, and its blocks are the subroutines. -/
theorem exists_class {options : Options} {unit source text : String}
    (h : compile options unit source = .ok text) :
    ∃ c : ClassDec, Scans source c.tokens ∧ (∀ c' : ClassDec, Scans source c'.tokens → c' = c) ∧
      c.Admitted options ∧ text = Line.listing (run options source).lines ∧
      (run options source).code = c.code ∧
      functionBlocks (run options source).code = c.subroutines.map (SubroutineDec.code c) := by
  obtain ⟨c, hc, hscans⟩ := exists_of_compile h
  obtain ⟨-, hlines⟩ := run_of_scans hc hscans
  have hcode : (run options source).code = c.code := by
    rw [Run.code, hlines, ClassDec.filterMap_lines]
  have hbody : ∀ d ∈ c.subroutines, ∀ i ∈ d.bodyCode c, i.opens = false := fun d hd i hi =>
    (SubroutineDec.emits_bodyCode hd (hc.1 d hd).1 (fun _ => hscans.wellFormed) i hi).opens
  refine ⟨c, hscans, fun c' hc' => ClassDec.tokens_injective (hc'.unique hscans), hc,
    (compile_ok_iff.mp h).2.symm, hcode, ?_⟩
  rw [hcode, ClassDec.functionBlocks_code hbody]

/-! ## An example -/

/-- A class with a constructor and a method that uses every sort of variable. -/
def finder : ClassDec where
  name := "Finder"
  vars := [⟨.static, ⟨.int, "n", []⟩⟩, ⟨.field, ⟨.named "Array", "a", []⟩⟩]
  subroutines := [
    { kind := .constructor
      result := some (.named "Finder")
      name := "new"
      parameters := [⟨.named "Array", "b"⟩]
      locals := []
      body := [
        .let_ "a" (.mk (.var "b") []),
        .let_ "n" (.mk (.var "n") [(.add, .integer 1 "1")]),
        .return_ (some (.mk (.word .this_) []))] },
    { kind := .method
      result := some .int
      name := "find"
      parameters := [⟨.int, "x"⟩]
      locals := [⟨.int, "i", []⟩]
      body := [
        .while_ (.mk (.var "i") [(.lt, .var "n")]) [
          .ifElse (.mk (.element "a" (.mk (.var "i") [])) [(.eq, .var "x")])
            [.return_ (some (.mk (.var "i") []))]
            [.letElement "a" (.mk (.var "i") [])
              (.mk (.unary .neg (.call (.mk none "find" [.mk (.var "x") []]))) [])],
          .let_ "i" (.mk (.var "i") [(.add, .integer 1 "1")])],
        .return_ none] }]

/-- The same class as a text, which starts with `class Finder { static int n ; field Array a ;`. -/
def finderText : String := spelled finder.tokens

theorem scans_finder : Scans finderText finder.tokens := scans_spelled (by decide +kernel)

theorem compile_finder :
    compile {} "Finder" finderText = .ok (Line.listing (finder.lines false)) := by
  have hc : finder.Admitted {} :=
    (ClassDec.admitted_iff scans_finder).mpr ⟨by decide, fun h => by cases h⟩
  exact compile_of_scans "Finder" hc scans_finder

end Jack
