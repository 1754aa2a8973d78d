import Std.Data.TreeMap
import Jack.Code.Instruction

/-!
# Variables and their slots

A table gives every declared name its kind, its type and a slot. Slots are counted per kind in the
order of declaration. A name declared again gets a new slot and its old entry is lost, but the slot
is not used again.

The counters have 16 bits. The slot after 65535 is 0 again, so that only the first 65536 variables
of a kind are sure to have slots of their own.
-/

namespace Jack

/-- How a variable is stored: once for the class, in each object, or in each call. -/
inductive VariableKind where
  | static | field | argument | local_
  deriving DecidableEq, Repr

namespace VariableKind

/-- The word that declares the kind. -/
def text : VariableKind → String
  | static => "static"
  | field => "field"
  | argument => "argument"
  | local_ => "var"

/-- The segment that holds variables of the kind. -/
def segment : VariableKind → Segment
  | static => .static
  | field => .this_
  | argument => .argument
  | local_ => .local_

/-- The place of the kind in a listing. -/
def rank : VariableKind → Nat
  | static => 0
  | field => 1
  | argument => 2
  | local_ => 3

theorem rank_injective {a b : VariableKind} (h : a.rank = b.rank) : a = b := by
  cases a <;> cases b <;> simp_all [rank]

end VariableKind

/-- A declared variable. -/
structure Variable where
  name : String
  type : String
  kind : VariableKind
  /-- The slot, a number of 16 bits. -/
  index : Nat
  deriving DecidableEq, Repr

namespace Variable

/-- The declaration and the slot, as listings and notes show them. -/
def text (v : Variable) : String :=
  v.kind.text ++ " " ++ v.type ++ " " ++ v.name ++ " -> " ++ v.kind.segment.text ++ " " ++
    toString v.index

/-- Listing order: by kind, then by slot. -/
def precedes (a b : Variable) : Bool :=
  a.kind.rank < b.kind.rank || (a.kind.rank == b.kind.rank && a.index ≤ b.index)

/-- The instruction that reads the variable. -/
def push (v : Variable) : Instruction := .push v.kind.segment v.index

/-- The instruction that writes the variable. -/
def pop (v : Variable) : Instruction := .pop v.kind.segment v.index

end Variable

/-- What a counter of 16 bits shows after the given number of steps. -/
def wrap16 (n : Nat) : Nat := n % 65536

theorem wrap16_of_le {n : Nat} (h : n ≤ 65535) : wrap16 n = n := Nat.mod_eq_of_lt (by omega)

@[simp] theorem wrap16_wrap16_succ (n : Nat) : wrap16 (wrap16 n + 1) = wrap16 (n + 1) :=
  Nat.mod_add_mod n 65536 1

/-- How many variables of each kind have been declared, as far as 16 bits can tell. -/
structure Counts where
  static : Nat := 0
  field : Nat := 0
  argument : Nat := 0
  local_ : Nat := 0
  deriving DecidableEq, Repr

namespace Counts

/-- The counter of one kind. -/
def get (counts : Counts) : VariableKind → Nat
  | .static => counts.static
  | .field => counts.field
  | .argument => counts.argument
  | .local_ => counts.local_

/-- Count one more declaration of the kind. -/
def bump (counts : Counts) : VariableKind → Counts
  | .static => { counts with static := wrap16 (counts.static + 1) }
  | .field => { counts with field := wrap16 (counts.field + 1) }
  | .argument => { counts with argument := wrap16 (counts.argument + 1) }
  | .local_ => { counts with local_ := wrap16 (counts.local_ + 1) }

theorem get_bump (counts : Counts) (kind other : VariableKind) :
    (counts.bump kind).get other =
      if kind = other then wrap16 (counts.get other + 1) else counts.get other := by
  cases kind <;> cases other <;> rfl

end Counts

/-- The variables of one scope. -/
structure Table where
  entries : Std.TreeMap String Variable := {}
  counts : Counts := {}

namespace Table

/-- The table without variables. -/
def empty : Table := {}

/-- The variable with this name. -/
def get? (table : Table) (name : String) : Option Variable := table.entries[name]?

/-- Whether the name is declared. -/
def contains (table : Table) (name : String) : Bool := (table.get? name).isSome

/-- The counter of the variables of a kind. Those declared again count too. -/
def count (table : Table) (kind : VariableKind) : Nat := table.counts.get kind

/-- The variable a declaration makes: its slot is what the counter of its kind shows. -/
def fresh (table : Table) (name type : String) (kind : VariableKind) : Variable :=
  ⟨name, type, kind, table.count kind⟩

/-- Declare a variable. -/
def define (table : Table) (name type : String) (kind : VariableKind) : Table where
  entries := table.entries.insert name (table.fresh name type kind)
  counts := table.counts.bump kind

/-- Declare a variable, and return the one that had its name before. -/
def declare (table : Table) (name type : String) (kind : VariableKind) : Option Variable × Table :=
  (table.get? name, table.define name type kind)

theorem get?_define (table : Table) (name type other : String) (kind : VariableKind) :
    (table.define name type kind).get? other =
      if name = other then some (table.fresh name type kind) else table.get? other := by
  simp [get?, define, Std.TreeMap.getElem?_insert]

theorem count_define (table : Table) (name type : String) (kind other : VariableKind) :
    (table.define name type kind).count other =
      if kind = other then wrap16 (table.count other + 1) else table.count other :=
  Counts.get_bump table.counts kind other

@[simp] theorem get?_empty (name : String) : empty.get? name = none := by
  simp [get?, empty]

@[simp] theorem count_empty (kind : VariableKind) : empty.count kind = 0 := by
  cases kind <;> rfl

/-- All variables of the table, by kind and slot. -/
def ordered (table : Table) : List Variable := table.entries.values.mergeSort Variable.precedes

end Table

end Jack
