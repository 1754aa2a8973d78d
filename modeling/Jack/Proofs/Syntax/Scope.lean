import Mathlib.Data.List.Induction
import Jack.Pass.Class
import Jack.Proofs.Syntax.Tree

/-!
# Scopes of a syntax tree

What the names in a tree mean, read off its declarations. Of several declarations of one name the
last one counts, and the slot of a variable is the number of declarations of its kind before it, in
16 bits (`Declaration.lookup`). A name is looked for among the declarations of the subroutine, with
the receiver of a method as the first, and then among those of the class.

A table of variables that is filled with the declarations one after the other gives the same answers
(`get?_tableOf`, `count_tableOf`).
-/

namespace Jack

/-- A name with its type and its kind. -/
structure Declaration where
  name : String
  type : String
  kind : VariableKind
  deriving DecidableEq

namespace Declaration

/-- The variable that a name stands for, given declarations from the last to the first. -/
def findLast (name : String) : List Declaration → Option Variable
  | [] => none
  | d :: earlier =>
    if d.name = name then
      some ⟨d.name, d.type, d.kind, wrap16 (earlier.countP (·.kind = d.kind))⟩
    else findLast name earlier

/-- The variable that a name stands for after the given declarations. -/
def lookup (ds : List Declaration) (name : String) : Option Variable := findLast name ds.reverse

theorem lookup_nil (name : String) : lookup [] name = none := rfl

theorem lookup_concat (ds : List Declaration) (d : Declaration) (name : String) :
    lookup (ds ++ [d]) name =
      if d.name = name then some ⟨d.name, d.type, d.kind, wrap16 (ds.countP (·.kind = d.kind))⟩
      else lookup ds name := by
  unfold lookup
  rw [List.reverse_append, List.reverse_singleton, List.singleton_append, findLast,
    List.countP_reverse]

/-- A name stands for a variable exactly when it is declared. -/
theorem isSome_lookup_iff (ds : List Declaration) (name : String) :
    (lookup ds name).isSome ↔ name ∈ ds.map Declaration.name := by
  induction ds using List.reverseRecOn with
  | nil => simp [lookup_nil]
  | append_singleton ds d ih =>
    rw [lookup_concat]
    by_cases h : d.name = name
    · simp [h]
    · rw [if_neg h, ih]
      simp [Ne.symm h]

/-- Declarations of one kind count for this kind and for no other. -/
theorem countP_of_kind {ds : List Declaration} {kind : VariableKind}
    (h : ∀ d ∈ ds, d.kind = kind) (k : VariableKind) :
    ds.countP (·.kind = k) = if kind = k then ds.length else 0 := by
  split_ifs with hkind
  · rw [List.countP_eq_length]
    intro d hd
    simp [h d hd, hkind]
  · rw [List.countP_eq_zero]
    intro d hd
    simp [h d hd, hkind]

end Declaration

/-! ## Tables -/

/-- The table after the given declarations. -/
def tableOf (ds : List Declaration) : Table :=
  ds.foldl (fun table d => table.define d.name d.type d.kind) Table.empty

@[simp] theorem tableOf_nil : tableOf [] = Table.empty := rfl

theorem tableOf_concat (ds : List Declaration) (d : Declaration) :
    tableOf (ds ++ [d]) = (tableOf ds).define d.name d.type d.kind := by
  simp [tableOf]

theorem count_tableOf (ds : List Declaration) (kind : VariableKind) :
    (tableOf ds).count kind = wrap16 (ds.countP (·.kind = kind)) := by
  induction ds using List.reverseRecOn with
  | nil => simp [wrap16]
  | append_singleton ds d ih =>
    rw [tableOf_concat, Table.count_define, ih, List.countP_append, List.countP_singleton]
    by_cases hkind : d.kind = kind <;> simp [hkind]

theorem get?_tableOf (ds : List Declaration) (name : String) :
    (tableOf ds).get? name = Declaration.lookup ds name := by
  induction ds using List.reverseRecOn with
  | nil => simp [Declaration.lookup_nil]
  | append_singleton ds d ih =>
    rw [tableOf_concat, Table.get?_define, Declaration.lookup_concat, ih, Table.fresh,
      count_tableOf]

theorem contains_tableOf (ds : List Declaration) (name : String) :
    (tableOf ds).contains name = true ↔ name ∈ ds.map Declaration.name := by
  unfold Table.contains
  rw [get?_tableOf, Declaration.isSome_lookup_iff]

/-! ## Declarations of a tree -/

/-- The variables that one declaration makes, of the given kind. -/
def VariableDec.declarations (kind : VariableKind) (d : VariableDec) : List Declaration :=
  d.names.map fun name => ⟨name, d.type.text, kind⟩

theorem VariableDec.kind_of_mem {d : VariableDec} {kind : VariableKind} {v : Declaration}
    (h : v ∈ d.declarations kind) : v.kind = kind := by
  obtain ⟨name, -, rfl⟩ := List.mem_map.mp h
  rfl

/-- The variables of a class, in the order in which they are declared. -/
def ClassDec.declarations (c : ClassDec) : List Declaration :=
  c.vars.flatMap fun d => d.vars.declarations d.storage.kind

namespace SubroutineDec

/-- The parameters of a subroutine. -/
def arguments (d : SubroutineDec) : List Declaration :=
  d.parameters.map fun p => ⟨p.name, p.type.text, .argument⟩

/-- The local variables of a subroutine. -/
def localVariables (d : SubroutineDec) : List Declaration :=
  d.locals.flatMap (VariableDec.declarations .local_)

/-- What a subroutine declares itself: its parameters and its local variables. -/
def declarations (d : SubroutineDec) : List Declaration := d.arguments ++ d.localVariables

/-- The hidden first argument of a method. -/
def receiver (className : String) (d : SubroutineDec) : List Declaration :=
  match d.kind with
  | .method => [⟨"this", className, .argument⟩]
  | .constructor | .function => []

/-- All that is declared in a subroutine. -/
def scope (className : String) (d : SubroutineDec) : List Declaration :=
  d.receiver className ++ d.declarations

/-- The number of arguments that a subroutine is given: a method has a hidden one. -/
def arity (d : SubroutineDec) : Nat :=
  d.parameters.length + if d.kind = .method then 1 else 0

theorem countP_scope (className : String) (d : SubroutineDec) (k : VariableKind) :
    (d.scope className).countP (·.kind = k) =
      (if .argument = k then d.arity else 0) +
        if .local_ = k then d.localVariables.length else 0 := by
  have hreceiver : ∀ v ∈ d.receiver className, v.kind = .argument := by
    unfold receiver
    cases d.kind <;> simp
  have harguments : ∀ v ∈ d.arguments, v.kind = .argument := by simp [arguments]
  have hlocals : ∀ v ∈ d.localVariables, v.kind = .local_ := by
    intro v hv
    obtain ⟨dec, -, hv⟩ := List.mem_flatMap.mp hv
    exact VariableDec.kind_of_mem hv
  have harity : (d.receiver className ++ d.arguments).length = d.arity := by
    unfold receiver arguments arity
    cases d.kind <;> simp
  unfold scope declarations
  rw [← List.append_assoc, List.countP_append,
    Declaration.countP_of_kind (List.forall_mem_append.mpr ⟨hreceiver, harguments⟩),
    Declaration.countP_of_kind hlocals, harity]

/-- The locals among all that is declared in a subroutine are those of its `var` declarations. -/
theorem countP_local_scope (className : String) (d : SubroutineDec) :
    (d.scope className).countP (·.kind = .local_) = d.localVariables.length := by
  rw [countP_scope]
  simp

end SubroutineDec

/-! ## What names mean -/

/-- What the names in a subroutine mean. -/
structure Environment where
  className : String
  /-- The name of the subroutine, with the class in front. -/
  subroutine : String
  find? : String → Option Variable

/-- What the names in a subroutine of a class mean. -/
def SubroutineDec.environment (c : ClassDec) (d : SubroutineDec) : Environment where
  className := c.name
  subroutine := c.name ++ "." ++ d.name
  find? name :=
    (Declaration.lookup (d.scope c.name) name).or (Declaration.lookup c.declarations name)

/-- What names mean in the context of a pass. -/
def Context.environment (context : Context) : Environment where
  className := context.className
  subroutine := context.subroutine.elim "" Subroutine.name
  find? := context.resolve?

namespace Context

variable {context : Context} {kind : VariableKind} {table : Table}

theorem table?_setTable (h : context.table? kind = some table) (table' : Table) :
    (context.setTable kind table').table? kind = some table' := by
  unfold table? setTable at *
  by_cases hclass : kind.isClassLevel = true
  · simp [hclass]
  · obtain ⟨subroutine, hsubroutine, -⟩ := Option.map_eq_some_iff.mp ((if_neg hclass).symm.trans h)
    simp [hclass, hsubroutine]

theorem setTable_setTable (context : Context) (kind : VariableKind) (table table' : Table) :
    (context.setTable kind table).setTable kind table' = context.setTable kind table' := by
  unfold setTable
  by_cases hclass : kind.isClassLevel = true
  · simp [hclass]
  · simp [hclass, Function.comp_def]

theorem setTable_of_table? (h : context.table? kind = some table) :
    context.setTable kind table = context := by
  unfold table? setTable at *
  obtain ⟨className, classTable, subroutine⟩ := context
  by_cases hclass : kind.isClassLevel = true
  · rw [if_pos hclass, Option.some.injEq] at h
    simp [hclass, ← h]
  · obtain ⟨entered, hentered, rfl⟩ :=
      Option.map_eq_some_iff.mp ((if_neg hclass).symm.trans h)
    simp only at hentered
    simp [hclass, hentered]

end Context

/-- All variables of a class belong to one table. -/
theorem ClassStorage.setTable_kind (w : ClassStorage) (context : Context) (table : Table) :
    context.setTable w.kind table = { context with classTable := table } := by
  cases w <;> rfl

namespace Environment

/-- Whether a name stands for a variable. -/
def Declares (env : Environment) (name : String) : Prop := (env.find? name).isSome

theorem declares_of_find? {env : Environment} {name : String} {v : Variable}
    (h : env.find? name = some v) : env.Declares name := by
  unfold Declares
  rw [h]
  rfl

theorem declares_iff (c : ClassDec) (d : SubroutineDec) (name : String) :
    (d.environment c).Declares name ↔
      name ∈ (d.scope c.name).map Declaration.name ∨
        name ∈ c.declarations.map Declaration.name := by
  unfold Declares SubroutineDec.environment
  simp only [Option.isSome_or, Bool.or_eq_true, Declaration.isSome_lookup_iff]

end Environment

theorem table_enter (className : String) (d : SubroutineDec) :
    (Subroutine.enter className d.name d.kind).table = tableOf (d.receiver className) := by
  unfold Subroutine.enter SubroutineDec.receiver
  cases d.kind <;> rfl

/-- The subroutine that a pass has entered, with all its variables. -/
def SubroutineDec.entered (c : ClassDec) (d : SubroutineDec) : Subroutine :=
  { Subroutine.enter c.name d.name d.kind with table := tableOf (d.scope c.name) }

/-- The context in which a pass compiles the subroutines of a class. -/
def ClassDec.context (c : ClassDec) : Context where
  className := c.name
  classTable := tableOf c.declarations

/-- The context in which a pass compiles the statements of a subroutine. -/
def SubroutineDec.context (c : ClassDec) (d : SubroutineDec) : Context :=
  c.context.inside (d.entered c)

/-- A subroutine that has been entered starts with its receiver. -/
theorem SubroutineDec.table?_inside (c : ClassDec) (d : SubroutineDec) :
    (c.context.inside (Subroutine.enter c.name d.name d.kind)).table? .argument =
      some (tableOf (d.receiver c.name)) := congrArg some (table_enter c.name d)

theorem SubroutineDec.subroutine_context (c : ClassDec) (d : SubroutineDec) :
    (d.context c).subroutine = some (d.entered c) := rfl

theorem environment_context (c : ClassDec) (d : SubroutineDec) :
    (d.context c).environment = d.environment c := by
  have hfind : (d.context c).resolve? = (d.environment c).find? := by
    funext name
    simp [Context.resolve?, resolve?, SubroutineDec.context, SubroutineDec.environment,
      SubroutineDec.entered, ClassDec.context, Context.inside, get?_tableOf]
  unfold Context.environment
  rw [hfind]
  rfl

end Jack
