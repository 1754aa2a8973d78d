import Mathlib.Data.List.Basic
import Jack.Pass.Class
import Jack.Proofs.Token.Spelling
import Jack.Proofs.Variable.Order

/-!
# Legible code

The lines of code that may be written are made of few characters. The names in instructions are
paths: they are put together from the names of the source text with dots and dollar signs
(`IsPath`). Comments are made of printable characters. So no line holds a line feed of its own.

`Line.Legible` says this of a line; `Table.Legible` and `Context.Legible` say it of the names that a
pass keeps. The code that a pass puts together from legible names is legible.
-/

namespace Jack

/-! ## Texts -/

/-- A character of a name in code. -/
def isPathChar (c : Char) : Bool := Cursor.isNameChar c || c == '.' || c == '$'

/-- The text is made of the characters of names in code. -/
def IsPath (text : String) : Prop := ∀ c ∈ text.toList, isPathChar c = true

instance (text : String) : Decidable (IsPath text) :=
  List.decidableBAll _ text.toList

/-- The text is made of printable characters, blanks included. -/
def IsPrintable (text : String) : Prop := ∀ c ∈ text.toList, 32 ≤ c.toNat ∧ c.toNat < 127

instance (text : String) : Decidable (IsPrintable text) :=
  List.decidableBAll _ text.toList

theorem IsPath.append {x y : String} (hx : IsPath x) (hy : IsPath y) : IsPath (x ++ y) := by
  unfold IsPath
  rw [String.toList_append, List.forall_mem_append]
  exact ⟨hx, hy⟩

theorem IsPrintable.append {x y : String} (hx : IsPrintable x) (hy : IsPrintable y) :
    IsPrintable (x ++ y) := by
  unfold IsPrintable
  rw [String.toList_append, List.forall_mem_append]
  exact ⟨hx, hy⟩

/-- The characters of names in code are printable, and none is a blank. -/
theorem toNat_of_isPathChar {c : Char} (h : isPathChar c = true) :
    33 ≤ c.toNat ∧ c.toNat < 127 := by
  simp only [isPathChar, Bool.or_eq_true, beq_iff_eq] at h
  obtain (h | rfl) | rfl := h
  · have := Cursor.toNat_of_isNameChar h
    omega
  · decide
  · decide

theorem IsPath.isPrintable {text : String} (h : IsPath text) : IsPrintable text := fun c hc => by
  have := toNat_of_isPathChar (h c hc)
  omega

theorem isPath_of_wellFormed {name : String} (h : (TokenKind.identifier name).WellFormed) :
    IsPath name := by
  intro c hc
  simp [isPathChar, List.all_eq_true.mp h.2.2.2 c hc]

theorem isPath_toString (n : Nat) : IsPath (toString n) := by
  have hdigits : (Nat.toDigits 10 n).all Char.isDigit = true := List.all_eq_true.mpr fun c hc =>
    Nat.isDigit_of_mem_toDigits (by decide) (by decide) hc
  intro c hc
  rw [show (toString n).toList = Nat.toDigits 10 n from Nat.toList_repr] at hc
  simp [isPathChar, List.all_eq_true.mp (Cursor.isNameChar_of_isDigit hdigits) c hc]

/-! ## Lines -/

/-- The name in an instruction, if it holds one, is a path. -/
def Instruction.Legible : Instruction → Prop
  | label name | goto name | ifGoto name | call name _ | function name _ => IsPath name
  | push _ _ | pop _ _ | operate _ | return_ => True

/-- The line is made of characters that may be written. -/
def Line.Legible : Line → Prop
  | instruction i => i.Legible
  | comment text => IsPrintable text

theorem Instruction.Legible.isPrintable {i : Instruction} (h : i.Legible) :
    IsPrintable i.text := by
  have hsegment : ∀ s : Segment, IsPrintable s.text := fun s => by cases s <;> decide
  have hblank : IsPrintable " " := by decide
  have hnumber : ∀ n : Nat, IsPrintable (toString n) := fun n => (isPath_toString n).isPrintable
  cases i with
  | push s n | pop s n =>
    exact (((by decide : IsPrintable _).append (hsegment s)).append hblank).append (hnumber n)
  | operate operation => cases operation <;> decide
  | label name | goto name | ifGoto name =>
    exact (by decide : IsPrintable _).append (IsPath.isPrintable h)
  | call name n | function name n =>
    exact (((by decide : IsPrintable _).append (IsPath.isPrintable h)).append hblank).append
      (hnumber n)
  | return_ => decide

theorem legible_routine (r : Routine) : r.call.Legible := by
  cases r <;> (unfold Routine.call Instruction.Legible; decide)

theorem legible_stringCode (characters : List Char) : ∀ i ∈ stringCode characters, i.Legible := by
  unfold stringCode
  rw [List.forall_mem_cons, List.forall_mem_cons]
  refine ⟨trivial, legible_routine _, fun i hi => ?_⟩
  obtain ⟨c, -, hi⟩ := List.mem_flatMap.mp hi
  obtain rfl | rfl : i = .number c.toNat ∨ i = Routine.appendChar.call := by simpa using hi
  · trivial
  · exact legible_routine _

theorem legible_binaryOperator {y : Symbol} {i : Instruction} (h : binaryOperator? y = some i) :
    i.Legible := by
  cases y <;> cases h <;> first | trivial | exact legible_routine _

theorem legible_keywordConstant {w : Keyword} {code : List Instruction}
    (h : keywordConstant? w = some code) : ∀ i ∈ code, i.Legible := by
  cases w <;> cases h <;>
    simp [Instruction.number, Instruction.pushReceiver, Instruction.Legible]

theorem legible_prologue (kind : SubroutineKind) (fields : Nat) :
    ∀ i ∈ prologue kind fields, i.Legible := by
  cases kind with
  | constructor =>
    simp only [prologue, List.forall_mem_cons]
    exact ⟨trivial, legible_routine _, trivial, by simp⟩
  | method => simp [prologue, Instruction.popReceiver, Instruction.Legible]
  | function => simp [prologue]

theorem isPath_label {name : String} (h : IsPath name) (mark : Mark) (number : Nat) :
    IsPath (Label.mk name mark number).text := by
  have hdollar : IsPath "$" := by decide
  have hmark : IsPath mark.text := by cases mark <;> decide
  exact ((h.append hdollar).append hmark).append (isPath_toString number)

/-! ## Tables -/

/-- All names and types in the table are paths. -/
def Table.Legible (table : Table) : Prop :=
  ∀ name v, table.get? name = some v → IsPath v.name ∧ IsPath v.type

theorem Table.legible_empty : Table.empty.Legible := by
  intro name v h
  simp at h

theorem Table.Legible.define {table : Table} {name type : String} (h : table.Legible)
    (hname : IsPath name) (htype : IsPath type) (kind : VariableKind) :
    (table.define name type kind).Legible := by
  intro other v hv
  rw [Table.get?_define] at hv
  split at hv
  · cases hv
    exact ⟨hname, htype⟩
  · exact h other v hv

theorem Variable.isPrintable_text {v : Variable} (hname : IsPath v.name) (htype : IsPath v.type) :
    IsPrintable v.text := by
  have hkind : IsPrintable v.kind.text := by cases v.kind <;> decide
  have hsegment : IsPrintable v.kind.segment.text := by cases v.kind <;> decide
  have hblank : IsPrintable " " := by decide
  have harrow : IsPrintable " -> " := by decide
  exact ((((((hkind.append hblank).append htype.isPrintable).append hblank).append
    hname.isPrintable).append harrow).append hsegment).append hblank |>.append
    (isPath_toString _).isPrintable

theorem legible_tableListing {title : String} {table : Table} (htitle : IsPrintable title)
    (h : table.Legible) : ∀ l ∈ tableListing title table, l.Legible := by
  intro l hl
  obtain rfl | hl := List.mem_cons.mp hl
  · exact htitle
  · obtain ⟨v, hv, rfl⟩ := List.mem_map.mp hl
    obtain ⟨name, hget⟩ := Table.mem_ordered.mp hv
    exact Variable.isPrintable_text (h name v hget).1 (h name v hget).2

/-! ## Contexts -/

/-- The name and the variables of the subroutine are paths. -/
structure Subroutine.Legible (subroutine : Subroutine) : Prop where
  name : IsPath subroutine.name
  table : subroutine.table.Legible

/-- All names that the context gives a meaning are paths. -/
structure Context.Legible (context : Context) : Prop where
  className : IsPath context.className
  classTable : context.classTable.Legible
  subroutine : ∀ subroutine, context.subroutine = some subroutine → subroutine.Legible

theorem Subroutine.legible_enter {className name : String} (hclass : IsPath className)
    (hname : IsPath name) (kind : SubroutineKind) :
    (Subroutine.enter className name kind).Legible := by
  refine ⟨(hclass.append (by decide)).append hname, ?_⟩
  cases kind with
  | method => exact Table.legible_empty.define (by decide) hclass _
  | constructor | function => exact Table.legible_empty

namespace Context

variable {context : Context}

theorem Legible.type (h : context.Legible) {name : String} {v : Variable}
    (hv : context.resolve? name = some v) : IsPath v.type := by
  unfold resolve? Jack.resolve? at hv
  obtain hv | ⟨-, hv⟩ := Option.or_eq_some_iff.mp hv
  · obtain ⟨table, htable, hv⟩ := Option.bind_eq_some_iff.mp hv
    obtain ⟨subroutine, hsubroutine, rfl⟩ := Option.map_eq_some_iff.mp htable
    exact ((h.subroutine subroutine hsubroutine).table name v hv).2
  · exact (h.classTable name v hv).2

theorem Legible.table? (h : context.Legible) {kind : VariableKind} {table : Table}
    (htable : context.table? kind = some table) : table.Legible := by
  unfold Context.table? at htable
  split at htable
  · cases htable
    exact h.classTable
  · obtain ⟨subroutine, hsubroutine, rfl⟩ := Option.map_eq_some_iff.mp htable
    exact (h.subroutine subroutine hsubroutine).table

theorem Legible.setTable (h : context.Legible) {table : Table} (htable : table.Legible)
    (kind : VariableKind) : (context.setTable kind table).Legible := by
  unfold Context.setTable
  split
  · exact ⟨h.className, htable, h.subroutine⟩
  · refine ⟨h.className, h.classTable, fun subroutine hsubroutine => ?_⟩
    obtain ⟨other, hother, rfl⟩ := Option.map_eq_some_iff.mp hsubroutine
    exact ⟨(h.subroutine other hother).name, htable⟩

theorem Legible.inside (h : context.Legible) {subroutine : Subroutine}
    (hsubroutine : subroutine.Legible) : (context.inside subroutine).Legible :=
  ⟨h.className, h.classTable, fun _ hsome => Option.some.inj hsome ▸ hsubroutine⟩

end Context

end Jack
