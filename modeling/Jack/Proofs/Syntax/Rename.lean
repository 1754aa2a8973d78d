import Mathlib.Data.List.Forall2
import Jack.Proofs.Output.Block
import Jack.Proofs.Variable.Order

/-!
# Renaming variables

A renaming gives names for names, different ones for different ones. It is applied to the variables
of a tree: to the declared names, and to the names that stand for a value, an array, the target of a
`let` or what is before the dot of a call. The names of classes, types, subroutines and members
stay.

1. The tokens of a renamed tree are those of the tree with other names (`ClassDec.renamed_tokens`).
2. What the declarations of a renamed class say of a new name is what those of the class say of the
   old one (`Declaration.lookup_rename`), so the environments of a subroutine before and after
   correspond (`SubroutineDec.corresponds`).
-/

namespace Jack

/-- Whether a text can be the name of a variable. -/
abbrev IsName (name : String) : Prop := (TokenKind.identifier name).WellFormed

/-- New names for old ones. -/
structure Renaming where
  newName : String → String
  isName : ∀ {name}, IsName name → IsName (newName name)
  injective : ∀ {name other}, IsName name → IsName other → newName name = newName other →
    name = other

/-! ## Trees -/

section Trees

variable (f : String → String)

mutual

/-- The term with other names for its variables. -/
def Term.rename : Term → Term
  | .integer value digits => .integer value digits
  | .string characters => .string characters
  | .word w => .word w
  | .var name => .var (f name)
  | .element name index => .element (f name) index.rename
  | .call c => .call c.rename
  | .parenthesized inner => .parenthesized inner.rename
  | .unary operator operand => .unary operator operand.rename

/-- The expression with other names for its variables. -/
def Expression.rename : Expression → Expression
  | .mk first rest => .mk first.rename (Expression.renameRest rest)

/-- Operators and right operands with other names for their variables. -/
def Expression.renameRest : List (BinaryOperator × Term) → List (BinaryOperator × Term)
  | [] => []
  | (operator, operand) :: rest => (operator, operand.rename) :: Expression.renameRest rest

/-- The call with other names for its variables. The name before the dot counts as one, the name of
the subroutine does not. -/
def Call.rename : Call → Call
  | .mk receiver name arguments => .mk (receiver.map f) name (Call.renameArguments arguments)

/-- Arguments with other names for their variables. -/
def Call.renameArguments : List Expression → List Expression
  | [] => []
  | e :: more => e.rename :: Call.renameArguments more

end

mutual

/-- The statement with other names for its variables. -/
def Statement.rename : Statement → Statement
  | .let_ name value => .let_ (f name) (value.rename f)
  | .letElement name index value => .letElement (f name) (index.rename f) (value.rename f)
  | .if_ condition yes => .if_ (condition.rename f) (Statement.renameBlock yes)
  | .ifElse condition yes no =>
    .ifElse (condition.rename f) (Statement.renameBlock yes) (Statement.renameBlock no)
  | .while_ condition body => .while_ (condition.rename f) (Statement.renameBlock body)
  | .do_ call => .do_ (call.rename f)
  | .return_ value => .return_ (value.map (Expression.rename f))

/-- Statements with other names for their variables. -/
def Statement.renameBlock : List Statement → List Statement
  | [] => []
  | s :: rest => s.rename :: Statement.renameBlock rest

end

/-- The declaration with other names for the variables. The type stays. -/
def VariableDec.rename (d : VariableDec) : VariableDec :=
  { d with first := f d.first, more := d.more.map f }

/-- The declaration with other names for the variables. -/
def ClassVariableDec.rename (d : ClassVariableDec) : ClassVariableDec :=
  { d with vars := d.vars.rename f }

/-- The parameter with another name. The type stays. -/
def Parameter.rename (p : Parameter) : Parameter := { p with name := f p.name }

/-- The subroutine with other names for its variables. Its own name and its types stay. -/
def SubroutineDec.rename (d : SubroutineDec) : SubroutineDec :=
  { d with
    parameters := d.parameters.map (Parameter.rename f)
    locals := d.locals.map (VariableDec.rename f)
    body := Statement.renameBlock f d.body }

/-- The class with other names for its variables. -/
def ClassDec.rename (c : ClassDec) : ClassDec :=
  { c with
    vars := c.vars.map (ClassVariableDec.rename f)
    subroutines := c.subroutines.map (SubroutineDec.rename f) }

end Trees

/-! ## Tokens -/

/-- Whether the second token is the first one, or another name for it. -/
inductive TokenKind.Renamed (f : String → String) : TokenKind → TokenKind → Prop
  | same (k : TokenKind) : TokenKind.Renamed f k k
  | name (name : String) : TokenKind.Renamed f (.identifier name) (.identifier (f name))

/-- The tokens are the same up to names. -/
abbrev Renamed (f : String → String) : List TokenKind → List TokenKind → Prop :=
  List.Forall₂ (TokenKind.Renamed f)

section Tokens

variable {f : String → String}

theorem Renamed.refl (ks : List TokenKind) : Renamed f ks ks :=
  List.forall₂_same.mpr fun k _ => .same k

theorem Renamed.enclosed {ks ls : List TokenKind} (opening closing : Symbol)
    (h : Renamed f ks ls) :
    Renamed f (Jack.enclosed opening closing ks) (Jack.enclosed opening closing ls) :=
  .cons (.same _) (List.rel_append h (Renamed.refl _))

theorem Renamed.flatMap {α : Type} (tokens : α → List TokenKind) (g : α → α)
    (h : ∀ x, Renamed f (tokens x) (tokens (g x))) (xs : List α) :
    Renamed f (xs.flatMap tokens) ((xs.map g).flatMap tokens) := by
  induction xs with
  | nil => exact .nil
  | cons x xs ih => exact List.rel_append (h x) ih

theorem Renamed.wellFormed {r : Renaming} {ks ls : List TokenKind} (h : Renamed r.newName ks ls)
    (hks : ∀ k ∈ ks, k.WellFormed) : ∀ l ∈ ls, l.WellFormed := by
  induction h with
  | nil => simp
  | @cons k l ks ls hkl _ ih =>
    rw [List.forall_mem_cons] at hks ⊢
    refine ⟨?_, ih hks.2⟩
    cases hkl with
    | same => exact hks.1
    | name name => exact r.isName hks.1

variable (f)

theorem Call.renamed_headTokens (receiver : Option String) (name : String) :
    Renamed f (Call.headTokens receiver name) (Call.headTokens (receiver.map f) name) := by
  cases receiver with
  | none => exact Renamed.refl _
  | some receiver => exact .cons (.name receiver) (Renamed.refl _)

mutual

theorem Term.renamed_tokens : ∀ t : Term, Renamed f t.tokens (t.rename f).tokens
  | .integer _ _ | .string _ | .word _ => Renamed.refl _
  | .var name => .cons (.name name) .nil
  | .element name index => .cons (.name name) (index.renamed_tokens.enclosed _ _)
  | .call c => c.renamed_tokens
  | .parenthesized inner => inner.renamed_tokens.enclosed _ _
  | .unary _ operand => .cons (.same _) operand.renamed_tokens

theorem Expression.renamed_tokens : ∀ e : Expression, Renamed f e.tokens (e.rename f).tokens
  | .mk first rest => List.rel_append first.renamed_tokens (Expression.renamed_restTokens rest)

theorem Expression.renamed_restTokens : ∀ rest : List (BinaryOperator × Term),
    Renamed f (Expression.restTokens rest) (Expression.restTokens (Expression.renameRest f rest))
  | [] => .nil
  | (_, operand) :: rest => .cons (.same _)
      (List.rel_append operand.renamed_tokens (Expression.renamed_restTokens rest))

theorem Call.renamed_tokens : ∀ c : Call, Renamed f c.tokens (c.rename f).tokens
  | .mk receiver name arguments => List.rel_append (Call.renamed_headTokens f receiver name)
      ((Call.renamed_argumentTokens arguments).enclosed _ _)

theorem Call.renamed_argumentTokens : ∀ es : List Expression,
    Renamed f (Call.argumentTokens es) (Call.argumentTokens (Call.renameArguments f es))
  | [] => .nil
  | e :: more => List.rel_append e.renamed_tokens (Call.renamed_moreTokens more)

theorem Call.renamed_moreTokens : ∀ es : List Expression,
    Renamed f (Call.moreTokens es) (Call.moreTokens (Call.renameArguments f es))
  | [] => .nil
  | e :: more =>
    .cons (.same _) (List.rel_append e.renamed_tokens (Call.renamed_moreTokens more))

end

mutual

theorem Statement.renamed_tokens : ∀ s : Statement, Renamed f s.tokens (s.rename f).tokens
  | .let_ name value => .cons (.same _) (.cons (.name name) (.cons (.same _)
      (List.rel_append (value.renamed_tokens f) (Renamed.refl _))))
  | .letElement name index value => .cons (.same _) (.cons (.name name)
      (List.rel_append ((index.renamed_tokens f).enclosed _ _)
        (.cons (.same _) (List.rel_append (value.renamed_tokens f) (Renamed.refl _)))))
  | .if_ condition yes => .cons (.same _) (List.rel_append
      ((condition.renamed_tokens f).enclosed _ _)
      ((Statement.renamed_blockTokens yes).enclosed _ _))
  | .ifElse condition yes no => .cons (.same _) (List.rel_append
      ((condition.renamed_tokens f).enclosed _ _)
      (List.rel_append ((Statement.renamed_blockTokens yes).enclosed _ _)
        (.cons (.same _) ((Statement.renamed_blockTokens no).enclosed _ _))))
  | .while_ condition body => .cons (.same _) (List.rel_append
      ((condition.renamed_tokens f).enclosed _ _)
      ((Statement.renamed_blockTokens body).enclosed _ _))
  | .do_ call => .cons (.same _) (List.rel_append (call.renamed_tokens f) (Renamed.refl _))
  | .return_ none => Renamed.refl _
  | .return_ (some value) =>
    .cons (.same _) (List.rel_append (value.renamed_tokens f) (Renamed.refl _))

theorem Statement.renamed_blockTokens : ∀ ts : List Statement,
    Renamed f (Statement.blockTokens ts) (Statement.blockTokens (Statement.renameBlock f ts))
  | [] => .nil
  | s :: rest => List.rel_append s.renamed_tokens (Statement.renamed_blockTokens rest)

end

theorem VariableDec.renamed_tokens (d : VariableDec) :
    Renamed f d.tokens (d.rename f).tokens := by
  have hmore : Renamed f (d.more.flatMap fun name => [.symbol .comma, .identifier name])
      ((d.more.map f).flatMap fun name => [.symbol .comma, .identifier name]) :=
    Renamed.flatMap _ f (fun name => .cons (.same _) (.cons (.name name) .nil)) d.more
  exact .cons (.same _) (.cons (.name d.first) (List.rel_append hmore (Renamed.refl _)))

theorem ClassVariableDec.renamed_tokens (d : ClassVariableDec) :
    Renamed f d.tokens (d.rename f).tokens := .cons (.same _) (d.vars.renamed_tokens f)

theorem Parameter.renamed_tokens (p : Parameter) : Renamed f p.tokens (p.rename f).tokens :=
  .cons (.same _) (.cons (.name p.name) .nil)

theorem Parameter.renamed_listTokens (ps : List Parameter) :
    Renamed f (listTokens ps) (listTokens (ps.map (Parameter.rename f))) := by
  cases ps with
  | nil => exact .nil
  | cons p more =>
    exact List.rel_append (p.renamed_tokens f)
      (Renamed.flatMap _ (rename f) (fun q => .cons (.same _) (q.renamed_tokens f)) more)

theorem SubroutineDec.renamed_tokens (d : SubroutineDec) :
    Renamed f d.tokens (d.rename f).tokens := by
  have hlocals : Renamed f (localTokens d.locals) (localTokens (d.rename f).locals) :=
    Renamed.flatMap _ (VariableDec.rename f) (fun v => .cons (.same _) (v.renamed_tokens f))
      d.locals
  exact .cons (.same _) (.cons (.same _) (.cons (.same _) (List.rel_append
    ((Parameter.renamed_listTokens f d.parameters).enclosed _ _)
    (Renamed.enclosed _ _ (List.rel_append hlocals (Statement.renamed_blockTokens f d.body))))))

/-- The tokens of a renamed class are those of the class, up to names. -/
theorem ClassDec.renamed_tokens (c : ClassDec) : Renamed f c.tokens (c.rename f).tokens :=
  .cons (.same _) (.cons (.same _) (Renamed.enclosed _ _ (List.rel_append
    (Renamed.flatMap _ _ (ClassVariableDec.renamed_tokens f) c.vars)
    (Renamed.flatMap _ _ (SubroutineDec.renamed_tokens f) c.subroutines))))

end Tokens

/-! ## Declarations -/

theorem VariableDec.declarations_rename (f : String → String) (kind : VariableKind)
    (d : VariableDec) :
    (d.rename f).declarations kind = (d.declarations kind).map (Declaration.rename f) := by
  simp [declarations, names, rename, Declaration.rename]

theorem ClassDec.declarations_rename (f : String → String) (c : ClassDec) :
    (c.rename f).declarations = c.declarations.map (Declaration.rename f) := by
  simp only [declarations, rename, List.flatMap_map, List.map_flatMap, ClassVariableDec.rename,
    VariableDec.declarations_rename]

theorem SubroutineDec.declarations_rename (f : String → String) (d : SubroutineDec) :
    (d.rename f).declarations = d.declarations.map (Declaration.rename f) := by
  simp only [declarations, arguments, localVariables, rename, List.map_append, List.map_map,
    List.flatMap_map, List.map_flatMap, VariableDec.declarations_rename]
  rfl

theorem Declaration.distinct_rename {r : Renaming} {ds : List Declaration}
    (hds : ∀ d ∈ ds, IsName d.name) (h : Distinct ds) : Distinct (ds.map (rename r.newName)) := by
  have hmap : (ds.map (rename r.newName)).map Declaration.name =
      (ds.map Declaration.name).map r.newName := by
    rw [List.map_map, List.map_map]
    rfl
  have hnames : ∀ name ∈ ds.map Declaration.name, IsName name := by
    intro name hname
    obtain ⟨d, hd, rfl⟩ := List.mem_map.mp hname
    exact hds d hd
  unfold Distinct
  rw [hmap]
  exact h.map_on fun m hm n hn => r.injective (hnames m hm) (hnames n hn)

/-! ## Environments -/

/-- The second environment says of new names what the first one says of the old ones. -/
structure Environment.Corresponds (f : String → String) (env env' : Environment) : Prop where
  className : env'.className = env.className
  subroutine : env'.subroutine = env.subroutine
  find? : ∀ name, IsName name → env'.find? (f name) = (env.find? name).map (Variable.rename f)

/-- The receiver of a method has a name that no variable can have. -/
theorem SubroutineDec.ne_of_mem_receiver {className name : String} {d : SubroutineDec}
    {v : Declaration} (hv : v ∈ d.receiver className) (hname : IsName name) : v.name ≠ name := by
  have hthis : v.name = "this" := by
    unfold receiver at hv
    cases hkind : d.kind with
    | method => simpa [hkind] using congrArg Declaration.name (by simpa [hkind] using hv)
    | constructor | function => simp [hkind] at hv
  rintro rfl
  rw [hthis] at hname
  exact absurd hname.1 (by decide)

/-- What the names in a subroutine mean, before and after the class is renamed. -/
theorem SubroutineDec.corresponds (r : Renaming) {c : ClassDec} {d : SubroutineDec}
    (hclass : ∀ v ∈ c.declarations, IsName v.name) (hd : ∀ v ∈ d.declarations, IsName v.name) :
    (d.environment c).Corresponds r.newName
      ((d.rename r.newName).environment (c.rename r.newName)) where
  className := rfl
  subroutine := rfl
  find? name hname := by
    have hscope := Declaration.lookup_rename (f := r.newName) (d.receiver c.name)
      (fun v hv => ⟨ne_of_mem_receiver hv hname, ne_of_mem_receiver hv (r.isName hname)⟩)
      fun v hv => r.injective (hd v hv) hname
    have houter := Declaration.lookup_rename (f := r.newName) [] (by simp)
      fun v hv => r.injective (hclass v hv) hname
    have hreceiver : (d.rename r.newName).scope (c.rename r.newName).name =
        d.receiver c.name ++ d.declarations.map (Declaration.rename r.newName) := by
      rw [scope, declarations_rename]
      rfl
    show (Declaration.lookup _ _).or (Declaration.lookup _ _) =
      Option.map _ ((Declaration.lookup _ _).or (Declaration.lookup _ _))
    rw [hreceiver, ClassDec.declarations_rename, hscope, Option.map_or]
    exact congrArg _ houter

end Jack
