import Jack.Proofs.Output.Block

/-!
# Stack discipline

How many values the code of a subroutine has on the stack is known before it runs: reading a block
from its start, every instruction changes the number by a fixed amount.

1. `Instruction.needs` and `Instruction.effect` say what an instruction does to this number; `depth`
   adds the effects up, and `Balanced` is the discipline of a block.
2. `depthAfter` follows the depth along code and fails where the discipline is broken. Code that it
   follows from 0 to 0 is balanced (`balanced_of_depthAfter`).
3. The code of an expression raises the depth by one, wherever it starts (`Raises`), since a call
   takes as many values as were pushed for it. The code of a statement starts and ends at depth 0
   (`Level`). Both are shown by recursion on the tree.
-/

namespace Jack

/-! ## Effects -/

/-- The number of values that an instruction takes off the stack. -/
def Instruction.needs : Instruction → Nat
  | .pop _ _ | .ifGoto _ | .return_ => 1
  | .operate .neg | .operate .not => 1
  | .operate _ => 2
  | .call _ count => count
  | .push _ _ | .label _ | .goto _ | .function _ _ => 0

/-- The change that an instruction makes to the number of values on the stack. -/
def Instruction.effect : Instruction → Int
  | .push _ _ => 1
  | .pop _ _ | .ifGoto _ | .return_ => -1
  | .operate .neg | .operate .not => 0
  | .operate _ => -1
  | .call _ count => 1 - count
  | .label _ | .goto _ | .function _ _ => 0

/-- The number of values on the stack after code that started with none. -/
def depth : List Instruction → Int
  | [] => 0
  | i :: rest => i.effect + depth rest

/-- The stack discipline of a block. -/
structure Balanced (block : List Instruction) : Prop where
  /-- No instruction takes more values than the block has pushed. -/
  enough : ∀ before i after, block = before ++ i :: after → (i.needs : Int) ≤ depth before
  label : ∀ before name after, block = before ++ .label name :: after → depth before = 0
  goto : ∀ before name after, block = before ++ .goto name :: after →
    depth (before ++ [.goto name]) = 0
  ifGoto : ∀ before name after, block = before ++ .ifGoto name :: after →
    depth (before ++ [.ifGoto name]) = 0
  return_ : ∀ before after, block = before ++ .return_ :: after → depth before = 1
  /-- Nothing is left at the end. -/
  ends : depth block = 0

theorem depth_concat (code : List Instruction) (i : Instruction) :
    depth (code ++ [i]) = depth code + i.effect := by
  induction code with
  | nil => exact Int.add_comm _ _
  | cons j code ih => rw [List.cons_append, depth, depth, ih, Int.add_assoc]

/-! ## Following the depth -/

/-- The number of values that an instruction pushes. -/
def Instruction.gives : Instruction → Nat
  | .push _ _ | .operate _ | .call _ _ => 1
  | .pop _ _ | .label _ | .goto _ | .ifGoto _ | .function _ _ | .return_ => 0

/-- The depth that an instruction calls for, where only one will do. -/
def Instruction.level? : Instruction → Option Nat
  | .label _ | .goto _ | .function _ _ => some 0
  | .ifGoto _ | .return_ => some 1
  | .push _ _ | .pop _ _ | .operate _ | .call _ _ => none

theorem Instruction.effect_eq (i : Instruction) : i.effect = i.gives - i.needs := by
  cases i with
  | operate operation => cases operation <;> rfl
  | call name count => rfl
  | _ => rfl

/-- The depth after an instruction, if the depth before it is as it has to be. -/
def Instruction.depthAfter (i : Instruction) (n : Nat) : Option Nat :=
  if i.needs ≤ n ∧ ∀ k ∈ i.level?, n = k then some (n - i.needs + i.gives) else none

/-- The depth after code. -/
def depthAfter : List Instruction → Nat → Option Nat
  | [], n => some n
  | i :: rest, n => (i.depthAfter n).bind (depthAfter rest)

theorem depthAfter_append (code rest : List Instruction) (n : Nat) :
    depthAfter (code ++ rest) n = (depthAfter code n).bind (depthAfter rest) := by
  induction code generalizing n with
  | nil => rfl
  | cons i code ih =>
    rw [List.cons_append, depthAfter, depthAfter, Option.bind_assoc]
    congr 1
    funext m
    exact ih m

/-- One instruction finds what it calls for, and the depth changes by its effect. -/
theorem Instruction.depthAfter_eq_some {i : Instruction} {n m : Nat}
    (h : i.depthAfter n = some m) :
    i.needs ≤ n ∧ (∀ k ∈ i.level?, n = k) ∧ (m : Int) = n + i.effect := by
  unfold depthAfter at h
  split_ifs at h with hi
  have hm := Option.some.inj h
  have heffect := i.effect_eq
  exact ⟨hi.1, hi.2, by omega⟩

/-- Along code, the depth changes by the effects of its instructions. -/
theorem depthAfter_eq_some {code : List Instruction} {n m : Nat}
    (h : depthAfter code n = some m) : (m : Int) = n + depth code := by
  induction code generalizing n with
  | nil =>
    obtain rfl := Option.some.inj h
    exact (Int.add_zero _).symm
  | cons i code ih =>
    obtain ⟨k, hi, hcode⟩ := Option.bind_eq_some_iff.mp h
    have hstep := (Instruction.depthAfter_eq_some hi).2.2
    have hrest := ih hcode
    rw [depth]
    omega

/-- Where code is followed from depth 0, every instruction in it finds what it calls for. -/
theorem depth_before {before after : List Instruction} {i : Instruction} {m : Nat}
    (h : depthAfter (before ++ i :: after) 0 = some m) :
    (i.needs : Int) ≤ depth before ∧ ∀ k ∈ i.level?, depth before = k := by
  rw [depthAfter_append] at h
  obtain ⟨n, hbefore, h⟩ := Option.bind_eq_some_iff.mp h
  obtain ⟨k, hi, -⟩ := Option.bind_eq_some_iff.mp h
  obtain ⟨hneeds, hlevel, -⟩ := Instruction.depthAfter_eq_some hi
  have hn := depthAfter_eq_some hbefore
  refine ⟨by omega, fun k hk => ?_⟩
  have := hlevel k hk
  omega

/-- Code that is followed from depth 0 to depth 0 is balanced. -/
theorem balanced_of_depthAfter {block : List Instruction} (h : depthAfter block 0 = some 0) :
    Balanced block where
  enough before i after hblock := (depth_before (hblock ▸ h)).1
  label before name after hblock := (depth_before (hblock ▸ h)).2 0 rfl
  goto before name after hblock := by
    rw [depth_concat, (depth_before (hblock ▸ h)).2 0 rfl]
    rfl
  ifGoto before name after hblock := by
    rw [depth_concat, (depth_before (hblock ▸ h)).2 1 rfl]
    rfl
  return_ before after hblock := (depth_before (hblock ▸ h)).2 1 rfl
  ends := by
    have := depthAfter_eq_some h
    omega

/-! ## Expressions -/

/-- From any depth, the code leads this much higher. It goes no lower than where it starts. -/
def Raises (code : List Instruction) (k : Nat) : Prop := ∀ n, depthAfter code n = some (n + k)

section Raises

variable {env : Environment} {code rest : List Instruction} {k l : Nat}

theorem raises_nil : Raises [] 0 := fun _ => rfl

/-- Code after code that has raised the depth may use this. -/
theorem Raises.continue (h : Raises code k)
    (hrest : ∀ n, depthAfter rest (n + k) = some (n + l)) : Raises (code ++ rest) l := by
  intro n
  rw [depthAfter_append, h n]
  exact hrest n

theorem Raises.append (h : Raises code k) (hrest : Raises rest l) :
    Raises (code ++ rest) (k + l) :=
  h.continue fun n => by rw [hrest, Nat.add_assoc]

theorem raises_push (segment : Segment) (i : Nat) : Raises [.push segment i] 1 := fun _ => rfl

/-- A call takes all the values that were pushed for it. -/
theorem Raises.call (name : String) (h : Raises code k) : Raises (code ++ [.call name k]) 1 := by
  refine h.continue fun n => ?_
  simp [depthAfter, Instruction.depthAfter, Instruction.needs, Instruction.gives,
    Instruction.level?]

theorem Raises.unary (op : UnaryOperator) (h : Raises code 1) : Raises (code ++ [op.code]) 1 := by
  refine h.continue fun n => ?_
  cases op <;> simp [depthAfter, Instruction.depthAfter, Instruction.needs, Instruction.gives,
    Instruction.level?, UnaryOperator.code]

theorem Raises.binary (op : BinaryOperator) (h : Raises code 2) :
    Raises (code ++ [op.code]) 1 := by
  refine h.continue fun n => ?_
  cases op <;> simp [depthAfter, Instruction.depthAfter, Instruction.needs, Instruction.gives,
    Instruction.level?, BinaryOperator.code]

/-- Reading an element takes the array and the index. -/
theorem Raises.element (h : Raises code 2) :
    Raises (code ++ [.operate .add, .pop .pointer 1, .push .that 0]) 1 := by
  refine h.continue fun n => ?_
  simp [depthAfter, Instruction.depthAfter, Instruction.needs, Instruction.gives,
    Instruction.level?]

theorem raises_read {name : String} (h : env.Declares name) : Raises (env.read name) 1 := by
  obtain ⟨v, hv⟩ := Option.isSome_iff_exists.mp h
  unfold Environment.read
  rw [hv]
  exact raises_push _ _

/-- Before its arguments, a call pushes as many values as it counts on top of them. -/
theorem raises_receiver (env : Environment) (r : Option String) :
    Raises (env.receiver r) (env.implicit r) := by
  cases r with
  | none => exact raises_push _ _
  | some name =>
    simp only [Environment.receiver, Environment.read, Environment.implicit]
    cases env.find? name with
    | none => exact raises_nil
    | some v => exact raises_push _ _

/-- Appending characters to a string leaves the string. -/
theorem Raises.appendChars (characters : List Char) (h : Raises code 1) :
    Raises (code ++ characters.flatMap fun c =>
      [.push .constant c.toNat, .call "String.appendChar" 2]) 1 := by
  induction characters generalizing code with
  | nil =>
    rw [List.flatMap_nil, List.append_nil]
    exact h
  | cons c characters ih =>
    have hchar := (h.append (raises_push .constant c.toNat)).call "String.appendChar"
    have hrest := ih hchar
    rw [List.append_assoc, List.append_assoc] at hrest
    exact hrest

theorem raises_stringText (characters : List Char) : Raises (stringText characters) 1 :=
  ((raises_push .constant characters.length).call "String.new").appendChars characters

end Raises

section Expressions

variable (env : Environment)

mutual

/-- **Terms.** The code of a term raises the depth by one. -/
theorem Term.raises : ∀ t : Term, t.Valid env → Raises (t.code env) 1
  | .integer value _, _ => raises_push .constant value
  | .string characters, _ => raises_stringText characters.toList
  | .word w, _ => by
    cases w with
    | true_ => exact (raises_push .constant 1).unary .neg
    | false_ => exact raises_push .constant 0
    | null => exact raises_push .constant 0
    | this_ => exact raises_push .pointer 0
  | .var _, hvalid => raises_read hvalid
  | .element _ index, hvalid =>
    ((raises_read hvalid.1).append (Expression.raises index hvalid.2)).element
  | .call c, hvalid => Call.raises c hvalid
  | .parenthesized inner, hvalid => Expression.raises inner hvalid
  | .unary op operand, hvalid => (Term.raises operand hvalid).unary op

/-- **Expressions.** The code of an expression raises the depth by one. -/
theorem Expression.raises : ∀ e : Expression, e.Valid env → Raises (e.code env) 1
  | .mk first rest, hvalid => Expression.raises_rest rest hvalid.2 (Term.raises first hvalid.1)

/-- Every operator uses up its left operand. -/
theorem Expression.raises_rest : ∀ (rest : List (BinaryOperator × Term))
    {code : List Instruction}, Expression.RestValid env rest → Raises code 1 →
    Raises (code ++ Expression.restCode env rest) 1
  | [], code, _, h => by
    rw [Expression.restCode, List.append_nil]
    exact h
  | (op, operand) :: rest, code, hvalid, h => by
    have hop := (h.append (Term.raises operand hvalid.1)).binary op
    have hrest := Expression.raises_rest rest hvalid.2 hop
    rw [List.append_assoc, List.append_assoc] at hrest
    exact hrest

/-- **Calls.** The code of a call raises the depth by one: the count of its arguments is the number
of values pushed for it. -/
theorem Call.raises : ∀ c : Call, c.Valid env → Raises (c.code env) 1
  | .mk receiver name arguments, hvalid =>
    ((raises_receiver env receiver).append (Call.raises_arguments arguments hvalid.1)).call
      (env.routine receiver name)

theorem Call.raises_arguments : ∀ arguments : List Expression,
    Call.ArgumentsValid env arguments → Raises (Call.argumentCode env arguments) arguments.length
  | [], _ => raises_nil
  | e :: more, hvalid => by
    rw [List.length_cons, Nat.add_comm]
    exact (Expression.raises e hvalid.1).append (Call.raises_arguments more hvalid.2)

end

end Expressions

/-! ## Statements -/

/-- The code starts and ends at depth 0. -/
def Level (code : List Instruction) : Prop := depthAfter code 0 = some 0

section Level

variable {code rest : List Instruction} {k : Nat}

theorem Level.append (h : Level code) (hrest : Level rest) : Level (code ++ rest) := by
  unfold Level at *
  rw [depthAfter_append, h]
  exact hrest

/-- Code that uses up all that was pushed. -/
theorem Raises.level (h : Raises code k) (hrest : depthAfter rest k = some 0) :
    Level (code ++ rest) := by
  unfold Level
  rw [depthAfter_append, h 0, Nat.zero_add]
  exact hrest

/-- A condition is used up by its jump. -/
theorem Raises.jump (h : Raises code 1) (name : String) :
    Level (code ++ [.operate .not, .ifGoto name]) := h.level rfl

theorem level_label (name : String) : Level [.label name] := rfl

theorem level_goto (target name : String) : Level [.goto target, .label name] := rfl

end Level

section Statements

variable (env : Environment)

mutual

/-- **Statements.** The code of a statement starts and ends at depth 0. -/
theorem Statement.level : ∀ (t : Statement) (n : Labels), t.Valid env → Level (t.code env n)
  | .let_ name value, _, hvalid => by
    obtain ⟨v, hv⟩ := Option.isSome_iff_exists.mp hvalid.1
    have hwrite : depthAfter (env.write name) 1 = some 0 := by
      rw [Environment.write_of_find? hv]
      rfl
    exact (Expression.raises env value hvalid.2).level hwrite
  | .letElement name index value, _, hvalid => by
    have haddress : Raises (env.read name ++ index.code env ++ [.operate .add]) 1 :=
      ((raises_read hvalid.1).append (Expression.raises env index hvalid.2.1)).binary .add
    exact (haddress.append (Expression.raises env value hvalid.2.2)).level rfl
  | .if_ condition yes, n, hvalid => by
    have htest := (Expression.raises env condition hvalid.1).jump (env.label "IF_FALSE" n.branches)
    have hyes := Statement.level_block yes { n with branches := n.branches + 1 } hvalid.2
    exact (htest.append hyes).append (level_label _)
  | .ifElse condition yes no, n, hvalid => by
    have htest := (Expression.raises env condition hvalid.1).jump (env.label "IF_FALSE" n.branches)
    have hyes := Statement.level_block yes { n with branches := n.branches + 1 } hvalid.2.1
    have hno := Statement.level_block no
      (Statement.blockAfter yes { n with branches := n.branches + 1 }) hvalid.2.2
    exact (((htest.append hyes).append (level_goto _ _)).append hno).append (level_label _)
  | .while_ condition body, n, hvalid => by
    have htest := (level_label (env.label "WHILE_EXP" n.loops)).append
      ((Expression.raises env condition hvalid.1).jump (env.label "WHILE_END" n.loops))
    have hbody := Statement.level_block body { n with loops := n.loops + 1 } hvalid.2
    rw [← List.append_assoc] at htest
    exact (htest.append hbody).append (level_goto _ _)
  | .do_ call, _, hvalid => (Call.raises env call hvalid).level rfl
  | .return_ none, _, _ => rfl
  | .return_ (some value), _, hvalid => (Expression.raises env value hvalid).level rfl

theorem Statement.level_block : ∀ (ts : List Statement) (n : Labels),
    Statement.BlockValid env ts → Level (Statement.blockCode env ts n)
  | [], _, _ => rfl
  | t :: rest, n, hvalid =>
    (Statement.level t n hvalid.1).append (Statement.level_block rest (t.after n) hvalid.2)

end

end Statements

/-! ## Subroutines -/

theorem SubroutineDec.level_entry (c : ClassDec) (d : SubroutineDec) : Level (d.entry c) := by
  unfold entry
  cases d.kind <;> rfl

/-- The code of a subroutine is balanced. -/
theorem SubroutineDec.balanced_code {c : ClassDec} {d : SubroutineDec} (h : d.Valid c) :
    Balanced (d.code c) := by
  have hheader : Level [.function (c.name ++ "." ++ d.name) d.localVariables.length] := rfl
  exact balanced_of_depthAfter (hheader.append
    ((d.level_entry c).append (Statement.level_block (d.environment c) d.body {} h)))

/-- **Stack discipline.** The code of a text that compiles is made up of blocks, and every block is
balanced: no instruction takes more values than the block has pushed, the depth is 0 at every label
and after every jump, 1 before every `return`, and 0 at the end. -/
theorem blocks_are_balanced {options : Options} {unit source text : String}
    (h : compile options unit source = .ok text) :
    text = Line.listing (run options source).lines ∧
      (functionBlocks (run options source).code).flatten = (run options source).code ∧
      ∀ block ∈ functionBlocks (run options source).code, Balanced block := by
  obtain ⟨c, -, -, hc, htext, hcode, hblocks⟩ := exists_class h
  refine ⟨htext, ?_, ?_⟩
  · rw [hblocks, hcode, ← List.flatMap_def]
    rfl
  · intro block hblock
    rw [hblocks] at hblock
    obtain ⟨d, hd, rfl⟩ := List.mem_map.mp hblock
    exact SubroutineDec.balanced_code (hc.1 d hd).1

/-- Both blocks of a class with a constructor and a recursive method are balanced. -/
theorem finder_is_balanced :
    compile {} "Finder" finderText = .ok (Line.listing (finder.lines false)) ∧
      (functionBlocks (run {} finderText).code).length = 2 ∧
      ∀ block ∈ functionBlocks (run {} finderText).code, Balanced block := by
  obtain ⟨c, -, hunique, -, -, -, hblocks⟩ := exists_class compile_finder
  obtain rfl := hunique finder scans_finder
  refine ⟨compile_finder, ?_, (blocks_are_balanced compile_finder).2.2⟩
  rw [hblocks]
  rfl

end Jack
