import Jack.Proofs.Machine.Label
import Jack.Proofs.Output.Block

/-!
# Jumps

Every jump of an output has one place to go to, and this place is in its own block.

1. `targetsIn` lists the names that code jumps to, and code is `Closed` where it defines all of
   them. The code of a statement is closed by itself, so that nothing around it matters
   (`Statement.closed`).
2. A label ends with a mark and a number, in which there is no dollar sign. What stands before the
   last dollar sign of a label is therefore the full name of its subroutine
   (`Environment.subroutine_of_label`), and the labels of different subroutines differ
   (`ClassDec.nodup_labelsIn`).
-/

namespace Jack

/-! ## Targets -/

/-- The names that code jumps to. -/
def targetsIn (code : List Instruction) : List String := code.filterMap Instruction.target?

@[simp] theorem targetsIn_nil : targetsIn [] = [] := rfl

@[simp] theorem targetsIn_append (code rest : List Instruction) :
    targetsIn (code ++ rest) = targetsIn code ++ targetsIn rest := List.filterMap_append

@[simp] theorem targetsIn_cons (i : Instruction) (rest : List Instruction) :
    targetsIn (i :: rest) = i.target?.toList ++ targetsIn rest := by
  unfold targetsIn
  rw [List.filterMap_cons]
  cases i.target? <;> rfl

theorem mem_targetsIn {code : List Instruction} {name : String} :
    name ∈ targetsIn code ↔ .goto name ∈ code ∨ .ifGoto name ∈ code := by
  unfold targetsIn
  rw [List.mem_filterMap]
  constructor
  · rintro ⟨i, hi, htarget⟩
    cases i with
    | goto target =>
      obtain rfl := Option.some.inj htarget
      exact .inl hi
    | ifGoto target =>
      obtain rfl := Option.some.inj htarget
      exact .inr hi
    | _ => cases htarget
  · rintro (h | h)
    · exact ⟨_, h, rfl⟩
    · exact ⟨_, h, rfl⟩

/-- The code defines every label that it jumps to. -/
def Closed (code : List Instruction) : Prop := ∀ name ∈ targetsIn code, name ∈ labelsIn code

section Closed

variable {code test body yes no rest : List Instruction}

theorem Straight.targetsIn (h : Straight code) : targetsIn code = [] :=
  List.filterMap_eq_nil_iff.mpr fun i hi => (h i hi).2

theorem Straight.closed (h : Straight code) : Closed code := by
  intro name hname
  rw [h.targetsIn] at hname
  cases hname

theorem Closed.append (h : Closed code) (hrest : Closed rest) : Closed (code ++ rest) := by
  intro name hname
  rw [targetsIn_append, List.mem_append] at hname
  rw [labelsIn_append, List.mem_append]
  exact hname.imp (h name) (hrest name)

/-- A jump over code is closed by the label after the code. -/
theorem Closed.skipped (htest : Straight test) (name : String) (hyes : Closed yes) :
    Closed (test ++ [.operate .not, .ifGoto name] ++ yes ++ [.label name]) := by
  intro target htarget
  have hcases : target = name ∨ target ∈ targetsIn yes := by
    simpa [htest.targetsIn, Instruction.target?] using htarget
  simp only [labelsIn_append, List.mem_append]
  obtain rfl | hin := hcases
  · exact .inr (by simp [Instruction.label?])
  · exact .inl (.inr (hyes target hin))

theorem Closed.chosen (htest : Straight test) (name last : String) (hyes : Closed yes)
    (hno : Closed no) :
    Closed (test ++ [.operate .not, .ifGoto name] ++ yes ++ [.goto last, .label name] ++ no ++
      [.label last]) := by
  intro target htarget
  have hcases : target = name ∨ target ∈ targetsIn yes ∨ target = last ∨ target ∈ targetsIn no := by
    simpa [htest.targetsIn, Instruction.target?] using htarget
  simp only [labelsIn_append, List.mem_append]
  obtain rfl | hin | rfl | hin := hcases
  · exact .inl (.inl (.inr (by simp [Instruction.label?])))
  · exact .inl (.inl (.inl (.inr (hyes target hin))))
  · exact .inr (by simp [Instruction.label?])
  · exact .inl (.inr (hno target hin))

/-- The jumps of a loop are closed by the labels on both sides of it. -/
theorem Closed.repeated (first last : String) (htest : Straight test) (hbody : Closed body) :
    Closed ([.label first] ++ test ++ [.operate .not, .ifGoto last] ++ body ++
      [.goto first, .label last]) := by
  intro target htarget
  have hcases : target = last ∨ target ∈ targetsIn body ∨ target = first := by
    simpa [htest.targetsIn, Instruction.target?] using htarget
  simp only [labelsIn_append, List.mem_append]
  obtain rfl | hin | rfl := hcases
  · exact .inr (by simp [Instruction.label?])
  · exact .inl (.inr (hbody target hin))
  · exact .inl (.inl (.inl (.inl (by simp [Instruction.label?]))))

end Closed

/-! ## Statements -/

section Statements

variable (env : Environment)

mutual

/-- **Statements.** The code of a statement jumps to labels of its own only. -/
theorem Statement.closed : ∀ (t : Statement) (n : Labels), Closed (t.code env n)
  | .let_ name value, _ => (value.straight env).closed.append (straight_write env name).closed
  | .letElement name index value, _ => by
    refine Straight.closed ?_
    simp [Statement.code, straight_read, index.straight env, value.straight env,
      Instruction.label?, Instruction.target?]
  | .if_ condition yes, _ =>
    Closed.skipped (condition.straight env) _ (Statement.closed_block yes _)
  | .ifElse condition yes no, _ =>
    Closed.chosen (condition.straight env) _ _ (Statement.closed_block yes _)
      (Statement.closed_block no _)
  | .while_ condition body, _ =>
    Closed.repeated _ _ (condition.straight env) (Statement.closed_block body _)
  | .do_ call, _ => by
    refine Straight.closed ?_
    simp [Statement.code, call.straight env, Instruction.label?, Instruction.target?]
  | .return_ none, _ => by
    refine Straight.closed ?_
    simp [Statement.code, Instruction.label?, Instruction.target?]
  | .return_ (some value), _ => by
    refine Straight.closed ?_
    simp [Statement.code, value.straight env, Instruction.label?, Instruction.target?]

theorem Statement.closed_block : ∀ (ts : List Statement) (n : Labels),
    Closed (Statement.blockCode env ts n)
  | [], _ => straight_nil.closed
  | t :: rest, n => (Statement.closed t n).append (Statement.closed_block rest (t.after n))

end

end Statements

/-! ## Subroutines and classes -/

/-- The code of a subroutine defines every label that it jumps to. -/
theorem SubroutineDec.closed_code (c : ClassDec) (d : SubroutineDec) : Closed (d.code c) := by
  have hheader : Straight [.function (c.name ++ "." ++ d.name) d.localVariables.length] := by
    simp [Instruction.label?, Instruction.target?]
  exact hheader.closed.append ((d.straight_entry c).closed.append
    (Statement.closed_block (d.environment c) d.body {}))

/-- What stands before the last occurrence of an element is determined. -/
theorem eq_of_append_cons_eq {α : Type} {x : α} {before before' after after' : List α}
    (hafter : x ∉ after) (hafter' : x ∉ after')
    (h : before ++ x :: after = before' ++ x :: after') : before = before' := by
  obtain ⟨between, rfl, hrest⟩ | ⟨between, rfl, hrest⟩ := List.append_eq_append_iff.mp h
  · cases between with
    | nil => rw [List.append_nil]
    | cons y between =>
      have hmem : x ∈ after := by simp [(List.cons.inj hrest).2]
      exact absurd hmem hafter
  · cases between with
    | nil => rw [List.append_nil]
    | cons y between =>
      have hmem : x ∈ after' := by simp [(List.cons.inj hrest).2]
      exact absurd hmem hafter'

/-- A mark and a number hold no dollar sign. -/
theorem dollar_notMem (m : Mark) (k : Nat) : '$' ∉ (m.text ++ toString k).toList := by
  have hmark : '$' ∉ m.text.toList := by cases m <;> decide
  have hnumber : '$' ∉ (toString k).toList := by
    intro hmem
    have hdigit : '$' ∈ Nat.toDigits 10 k := Nat.toList_repr ▸ hmem
    exact absurd (Nat.isDigit_of_mem_toDigits (by decide) (by decide) hdigit) (by decide)
  rw [String.toList_append, List.mem_append]
  exact not_or_intro hmark hnumber

/-- The subroutine of a label can be read off its name. -/
theorem Environment.subroutine_of_label {env env' : Environment} {m m' : Mark} {k k' : Nat}
    (h : env.label m.text k = env'.label m'.text k') : env.subroutine = env'.subroutine := by
  have hlists : env.subroutine.toList ++ '$' :: (m.text ++ toString k).toList =
      env'.subroutine.toList ++ '$' :: (m'.text ++ toString k').toList := by
    simpa [Environment.label, String.toList_append] using congrArg String.toList h
  exact String.toList_injective
    (eq_of_append_cons_eq (dollar_notMem m k) (dollar_notMem m' k') hlists)

/-- Subroutines of different names have no label in common. -/
theorem SubroutineDec.disjoint_labelsIn (c : ClassDec) {d d' : SubroutineDec}
    (h : d.name ≠ d'.name) : (labelsIn (d.code c)).Disjoint (labelsIn (d'.code c)) := by
  intro name hname hname'
  rw [labelsIn_code, List.mem_map] at hname hname'
  obtain ⟨⟨m, k⟩, -, rfl⟩ := hname
  obtain ⟨⟨m', k'⟩, -, heq⟩ := hname'
  have hfull : c.name ++ "." ++ d'.name = c.name ++ "." ++ d.name :=
    Environment.subroutine_of_label heq
  exact h ((String.append_right_inj _).mp hfull).symm

/-- Where the subroutines of a class have different names, its code defines no label twice. -/
theorem ClassDec.nodup_labelsIn {c : ClassDec} (h : (c.subroutines.map SubroutineDec.name).Nodup) :
    (labelsIn c.code).Nodup := by
  unfold labelsIn code
  rw [List.filterMap_flatMap, List.nodup_flatMap]
  refine ⟨fun d _ => d.nodup_labelsIn c, ?_⟩
  exact (List.pairwise_map.mp h).imp fun hne => SubroutineDec.disjoint_labelsIn c hne

/-- **Jumps.** In each block of the output no label is defined twice, and the target of every jump
is defined once, in the same block. Where the subroutines of the class have different names, no
label is defined twice in the whole output. -/
theorem jumps_are_resolved {options : Options} {unit source text : String}
    (h : compile options unit source = .ok text) :
    ∃ c : ClassDec, Scans source c.tokens ∧ (∀ c' : ClassDec, Scans source c'.tokens → c' = c) ∧
      text = Line.listing (run options source).lines ∧
      (∀ block ∈ functionBlocks (run options source).code, (labelsIn block).Nodup ∧
        ∀ name, .goto name ∈ block ∨ .ifGoto name ∈ block → (labelsIn block).count name = 1) ∧
      ((c.subroutines.map SubroutineDec.name).Nodup →
        (labelsIn (run options source).code).Nodup) := by
  obtain ⟨c, hscans, hunique, -, htext, hcode, hblocks⟩ := exists_class h
  refine ⟨c, hscans, hunique, htext, ?_, ?_⟩
  · intro block hblock
    rw [hblocks] at hblock
    obtain ⟨d, -, rfl⟩ := List.mem_map.mp hblock
    refine ⟨d.nodup_labelsIn c, fun name hname => ?_⟩
    have hmem := d.closed_code c name (mem_targetsIn.mpr hname)
    exact List.count_eq_one_of_mem (d.nodup_labelsIn c) hmem
  · intro hnames
    rw [hcode]
    exact ClassDec.nodup_labelsIn hnames

/-- The labels of a method with a loop and a branch in it. -/
theorem finder_jumps_are_resolved :
    compile {} "Finder" finderText = .ok (Line.listing (finder.lines false)) ∧
      labelsIn (run {} finderText).code =
        ["Finder.find$WHILE_EXP0", "Finder.find$IF_FALSE0", "Finder.find$IF_END0",
          "Finder.find$WHILE_END0"] ∧
      (labelsIn (run {} finderText).code).Nodup ∧
      ∀ block ∈ functionBlocks (run {} finderText).code,
        ∀ name, .goto name ∈ block ∨ .ifGoto name ∈ block → (labelsIn block).count name = 1 := by
  obtain ⟨c, -, hunique, -, -, hcode, -⟩ := exists_class compile_finder
  obtain ⟨c', -, hunique', -, hblocks, hnodup⟩ := jumps_are_resolved compile_finder
  obtain rfl := hunique finder scans_finder
  obtain rfl := hunique' finder scans_finder
  refine ⟨compile_finder, ?_, hnodup (by decide), fun block hblock => (hblocks block hblock).2⟩
  rw [hcode]
  decide +kernel

end Jack
