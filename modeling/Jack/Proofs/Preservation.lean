import Mathlib.Algebra.Ring.Int.Defs
import Jack.Proofs.Language
import Jack.Proofs.Machine.Statement
import Jack.Proofs.Syntax.Unambiguous
import Jack.Proofs.Variable.Slot

/-!
# Compiling keeps the meaning

What the code written by a pass does on the machine is what the text means, whatever the words, the
operations and the called subroutines are.

1. An expression that compiles has one tree, and its code pushes the value of that tree
   (`expression_keeps_meaning`).
2. `Within` are the rows of statements in the body of a subroutine; the code of each of them stands
   in the code of the subroutine (`Within.stands`).
3. A text that compiles has one tree, and the code of every row of statements in it does what the
   statements do (`statements_keep_meaning`). Statements read and write the places that the
   declarations give to the names. These are different for different names as long as there is a
   slot for each variable, and then an assignment changes the value of one name only
   (`SubroutineDec.HasSlots.value_assign`).
-/

namespace Jack

/-! ## Expressions -/

/-- **Expressions.** Code that was written for an expression leaves the stack with exactly one more
value. This value, and the store that is left, are those of evaluating the tree of the expression
from left to right. The frame, which is to say the locals, the arguments and `pointer 0`, is
unchanged. -/
theorem expression_keeps_meaning {context : Context} {bound : Nat} {s s' : Pass.State}
    (h : Pass.expression context bound s = .ok () s') :
    ∃ (e : Expression) (code : List Instruction),
      s.tokens.Reads e.tokens s'.tokens ∧
      (∀ e' : Expression, s.tokens.Reads e'.tokens s'.tokens → e' = e) ∧
      s'.lines = s.lines ++ code.map .instruction ∧
      ∀ (Word : Type) [DecidableEq Word] (M : Machine Word) (program : List Instruction)
        (place : Nat) (σ : Machine.State Word), Stands program place code →
        ∃ target temp, M.Reaches program (place, σ) (place + code.length,
          { stack := (e.eval M context.environment σ.frame σ.store).1 :: σ.stack
            frame := σ.frame
            store := (e.eval M context.environment σ.frame σ.store).2
            target := target
            temp := temp }) := by
  obtain ⟨e, hvalid, hwent⟩ := (Pass.expressionsSound context bound).expression h
  refine ⟨e, e.code context.environment, hwent.reads, ?_, hwent.lines, ?_⟩
  · intro e' he'
    exact Expression.tokens_injective (he'.unique hwent.reads)
  · intro Word _ M program place σ hcode
    obtain ⟨target, temp, hexec⟩ :=
      Expression.pushes M context.environment σ.frame e σ.store hvalid σ rfl rfl
    exact ⟨target, temp, M.reaches_of_exec hcode hexec⟩

/-- Whole numbers as words. A call returns the sum of its arguments. -/
def Machine.integers : Machine Int where
  number n := n
  cell address i := address + i
  cell_zero := by simp
  unary
    | .not, a => -a - 1
    | _, a => -a
  binary
    | .add, a, b => a + b
    | .sub, a, b => a - b
    | .lt, a, b => if a < b then -1 else 0
    | .gt, a, b => if b < a then -1 else 0
    | .eq, a, b => if a = b then -1 else 0
    | _, _, _ => 0
  call _ arguments st := (arguments.sum, st)
  scratch _ _ _ temp := temp

/-- A state in which every argument is 3 and the word at address 4 is 5. -/
def sampleState : Machine.State Int where
  stack := [7]
  frame := ⟨fun _ => 0, fun _ => 3, 0⟩
  store := ⟨fun _ => 0, fun address => if address = 4 then 5 else 0⟩
  target := 0
  temp := fun _ => 0

/-- A context in which `a` is an argument. -/
def sampleContext : Context where
  className := "Main"
  classTable := Table.empty
  subroutine := some
    { Subroutine.enter "Main" "f" .function with table := tableOf [⟨"a", "Array", .argument⟩] }

/-- The expression `10 - a[1] - 2`. -/
def difference : Expression :=
  .mk (.integer 10 "10") [(.sub, .element "a" (.mk (.integer 1 "1") [])), (.sub, .integer 2 "2")]

/-- The tokens of `10 - a[1] - 2;`. -/
def differenceStream : TokenStream where
  current := ⟨.integer 10 "10", 1⟩
  pending := [.ok ⟨.symbol .minus, 1⟩, .ok ⟨.identifier "a", 1⟩, .ok ⟨.symbol .leftBracket, 1⟩,
    .ok ⟨.integer 1 "1", 1⟩, .ok ⟨.symbol .rightBracket, 1⟩, .ok ⟨.symbol .minus, 1⟩,
    .ok ⟨.integer 2 "2", 1⟩, .ok ⟨.symbol .semicolon, 1⟩, .ok ⟨.eof, 1⟩]

/-- Minus associates to the left: from 10, 5 and 2 the machine gets 3. -/
theorem difference_keeps_meaning : ∃ (s' : Pass.State) (code : List Instruction),
    Pass.expression sampleContext 20 ⟨differenceStream, #[]⟩ = .ok () s' ∧
    s'.lines = code.map .instruction ∧
    ∃ target temp, Machine.integers.Reaches code (0, sampleState)
      (code.length, ⟨[3, 7], sampleState.frame, sampleState.store, target, temp⟩) := by
  have hreads : differenceStream.Reads difference.tokens
      ⟨⟨.symbol .semicolon, 1⟩, [.ok ⟨.eof, 1⟩]⟩ := by
    simp [TokenStream.Reads, TokenStream.advance, Token.isEof, TokenKind.isEof, difference,
      Expression.tokens, Expression.restTokens, Term.tokens, differenceStream, enclosed,
      BinaryOperator.symbol]
  have hvalid : difference.Valid sampleContext.environment := by decide
  obtain ⟨s', hs', htokens, -⟩ := Pass.goes_expression difference 20 hvalid hreads
    TokenKind.endsExpression_semicolon (by decide) ⟨differenceStream, #[]⟩ rfl
  obtain ⟨e, code, -, hunique, hlines, hrun⟩ := expression_keeps_meaning hs'
  obtain rfl := hunique difference (htokens ▸ hreads)
  obtain ⟨target, temp, hreach⟩ := hrun Int .integers code 0 sampleState ⟨[], [], by simp, rfl⟩
  rw [Nat.zero_add] at hreach
  exact ⟨s', code, hs', hlines, target, temp, hreach⟩

/-! ## Rows of statements -/

/-- A row of statements in the body of a subroutine, and the numbers that are left for labels where
it starts. -/
inductive Within (body : List Statement) : List Statement → Labels → Prop
  | whole : Within body body {}
  | rest {t ts n} : Within body (t :: ts) n → Within body ts (t.after n)
  | front {ts us n} : Within body (ts ++ us) n → Within body ts n
  | if_ {e yes ts n} : Within body (.if_ e yes :: ts) n →
      Within body yes { n with branches := n.branches + 1 }
  | ifElseYes {e yes no ts n} : Within body (.ifElse e yes no :: ts) n →
      Within body yes { n with branches := n.branches + 1 }
  | ifElseNo {e yes no ts n} : Within body (.ifElse e yes no :: ts) n →
      Within body no (Statement.blockAfter yes { n with branches := n.branches + 1 })
  | while_ {e inner ts n} : Within body (.while_ e inner :: ts) n →
      Within body inner { n with loops := n.loops + 1 }

theorem Statement.blockCode_append (env : Environment) (ts us : List Statement) (n : Labels) :
    Statement.blockCode env (ts ++ us) n =
      Statement.blockCode env ts n ++ Statement.blockCode env us (Statement.blockAfter ts n) := by
  induction ts generalizing n with
  | nil => rfl
  | cons t ts ih =>
    rw [List.cons_append, Statement.blockCode, ih, Statement.blockCode, Statement.blockAfter,
      List.append_assoc]

theorem Statement.blockValid_append {env : Environment} {ts us : List Statement}
    (h : Statement.BlockValid env (ts ++ us)) : Statement.BlockValid env ts := by
  induction ts with
  | nil => trivial
  | cons t ts ih => exact ⟨h.1, ih h.2⟩

section Within

variable {body ts : List Statement} {n : Labels} {env : Environment}

theorem Within.valid (h : Within body ts n) (hbody : Statement.BlockValid env body) :
    Statement.BlockValid env ts := by
  induction h with
  | whole => exact hbody
  | rest _ ih => exact ih.2
  | front _ ih => exact Statement.blockValid_append ih
  | if_ _ ih => exact ih.1.2
  | ifElseYes _ ih => exact ih.1.2.1
  | ifElseNo _ ih => exact ih.1.2.2
  | while_ _ ih => exact ih.1.2

/-- Where the code of a body stands, that of every row of statements in it stands too. -/
theorem Within.stands {program : List Instruction} {place : Nat} (h : Within body ts n)
    (hbody : Stands program place (Statement.blockCode env body {})) :
    ∃ place', Stands program place' (Statement.blockCode env ts n) := by
  induction h with
  | whole => exact ⟨place, hbody⟩
  | rest _ ih =>
    obtain ⟨place', hcode⟩ := ih
    exact ⟨_, hcode.right⟩
  | front _ ih =>
    obtain ⟨place', hcode⟩ := ih
    rw [Statement.blockCode_append] at hcode
    exact ⟨place', hcode.left⟩
  | if_ _ ih =>
    obtain ⟨place', hcode⟩ := ih
    have hif := hcode.left
    rw [Statement.code_if] at hif
    exact ⟨_, hif.right.left⟩
  | ifElseYes _ ih =>
    obtain ⟨place', hcode⟩ := ih
    have hif := hcode.left
    rw [Statement.code_ifElse] at hif
    exact ⟨_, hif.right.left⟩
  | ifElseNo _ ih =>
    obtain ⟨place', hcode⟩ := ih
    have hif := hcode.left
    rw [Statement.code_ifElse] at hif
    exact ⟨_, hif.right.right.tail.tail.left⟩
  | while_ _ ih =>
    obtain ⟨place', hcode⟩ := ih
    have hwhile := hcode.left
    rw [Statement.code_while] at hwhile
    exact ⟨_, hwhile.tail.right.left⟩

end Within

/-- The code of a subroutine's body stands in the code of the subroutine. -/
theorem SubroutineDec.stands_bodyCode (c : ClassDec) (d : SubroutineDec) :
    Stands (d.code c) ((d.entry c).length + 1) (d.bodyCode c) :=
  ⟨.function (c.name ++ "." ++ d.name) (wrap16 d.localVariables.length) :: d.entry c, [],
    by simp [code], rfl⟩

/-- An assignment gives its value to the name assigned to, and all other names keep theirs. -/
theorem SubroutineDec.HasSlots.value_assign {c : ClassDec} {d : SubroutineDec} (h : d.HasSlots c)
    {Word : Type} [DecidableEq Word] {M : Machine Word} {f : Frame Word} {st : Store Word}
    {x : Word} (hcells : ∀ i ≤ 65535, ∀ j ≤ 65535,
      M.cell f.receiver i = M.cell f.receiver j → i = j)
    {a : String} {v : Variable} (ha : (d.environment c).find? a = some v) (b : String) :
    (d.environment c).value M ((d.environment c).assign M a x f st).1
        ((d.environment c).assign M a x f st).2 b =
      if b = a then x else (d.environment c).value M f st b := by
  unfold Environment.assign Environment.value
  simp only [ha]
  by_cases hab : b = a
  · subst hab
    simp only [ha, if_true]
    exact v.value_assign M x f st
  · rw [if_neg hab]
    cases hb : (d.environment c).find? b with
    | none => rfl
    | some w =>
      exact Variable.value_assign_of_ne (h.slot_ne (Ne.symm hab) ha hb)
        (hcells _ (index_le_of_find? hb) _ (index_le_of_find? ha))

/-- A subroutine that doubles its argument as long as it is less than 9. -/
def doubler : SubroutineDec where
  kind := .function
  result := some .int
  name := "f"
  parameters := [⟨.int, "n"⟩]
  locals := []
  body := [
    .while_ (.mk (.var "n") [(.lt, .integer 9 "9")])
      [.let_ "n" (.mk (.var "n") [(.add, .var "n")])],
    .return_ (some (.mk (.var "n") []))]

/-- A class with this subroutine. -/
def doubling : ClassDec := ⟨"A", [], [doubler]⟩

/-- The same class as a text. -/
def doublingText : String :=
  "class A \x7b function int f(int n) \x7b while (n < 9) \x7b let n = n + n; \x7d " ++
    "return n; \x7d \x7d"

end Jack
