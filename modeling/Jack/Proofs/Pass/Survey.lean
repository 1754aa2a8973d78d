import Mathlib.Data.List.Nodup
import Jack.Proofs.Pass.Replay
import Jack.Proofs.Syntax.Scope

/-!
# Where names are declared

Which names are declared where can be told from the tokens alone, without a grammar. A `Survey`
reads tokens one after the other; it knows at which point of a declaration it stands (`Stage`) and
lists the names declared so far, each with its scope and its line (`Site`). Scope zero is the class,
and the subroutines are counted from one.

A strict pass is followed by a survey of the tokens it takes (`Pass.Surveyed`). While the pass goes
on, the tables hold the names that the survey has listed for their scopes, and no name is listed
twice for one scope. The pass refuses a declaration just when the survey lists its name again.
-/

namespace Jack

/-! ## Surveys -/

/-- Where variables are declared: in a class, as parameters, or in the body of a subroutine. -/
inductive Place where
  | class_ | parameter | local_
  deriving DecidableEq, Repr

/-- The place in which variables of the kind are declared. -/
def VariableKind.place : VariableKind → Place
  | static | field => .class_
  | argument => .parameter
  | local_ => .local_

/-- What comes next in a declaration. -/
inductive Stage where
  /-- Not in a declaration. -/
  | elsewhere
  | type (place : Place)
  | name (place : Place)
  /-- A comma, or what ends the row of names. -/
  | more (place : Place)
  /-- The type of what a subroutine returns. -/
  | result
  /-- The name of a subroutine. -/
  | title
  /-- The parenthesis before the parameters. -/
  | opening
  deriving DecidableEq, Repr

/-- The stage after a token. -/
def Stage.next : Stage → TokenKind → Stage
  | elsewhere, .keyword .static | elsewhere, .keyword .field => type .class_
  | elsewhere, .keyword .var => type .local_
  | elsewhere, .keyword .constructor | elsewhere, .keyword .function
  | elsewhere, .keyword .method => result
  | elsewhere, _ => elsewhere
  | result, _ => title
  | title, _ => opening
  | opening, _ => type .parameter
  | type .parameter, .symbol .rightParen => elsewhere
  | type place, _ => name place
  | name place, _ => more place
  | more .parameter, .symbol .comma => type .parameter
  | more place, .symbol .comma => name place
  | more _, _ => elsewhere

theorem Stage.next_of_plain {k : TokenKind} (h : k.Plain) :
    Stage.next .elsewhere k = .elsewhere := by
  cases k with
  | keyword w => cases w <;> first | rfl | cases h
  | _ => rfl

/-- A declared name, with the number of its scope and its line. -/
structure Site where
  scope : Nat
  name : String
  line : Nat
  deriving DecidableEq, Repr

/-- What must not occur twice: a name in a scope. -/
def Site.key (site : Site) : Nat × String := (site.scope, site.name)

/-- No name is declared twice in one scope. -/
def Site.Distinct (sites : List Site) : Prop := (sites.map Site.key).Nodup

instance (sites : List Site) : Decidable (Site.Distinct sites) :=
  inferInstanceAs (Decidable (List.Nodup _))

/-- What is known after some tokens. -/
structure Survey where
  stage : Stage := .elsewhere
  /-- How many subroutines have begun. -/
  subroutines : Nat := 0
  sites : List Site := []

namespace Survey

/-- The scope in which a place declares: that of the class, or that of the last subroutine. -/
def scope (v : Survey) : Place → Nat
  | .class_ => 0
  | .parameter | .local_ => v.subroutines

/-- Read a token. -/
def read (v : Survey) (t : Token) : Survey where
  stage := v.stage.next t.kind
  subroutines := if v.stage.next t.kind = .result then v.subroutines + 1 else v.subroutines
  sites :=
    match v.stage, t.kind with
    | .name place, .identifier name => v.sites ++ [⟨v.scope place, name, t.line⟩]
    | _, _ => v.sites

/-- Read tokens in order. -/
def readAll (v : Survey) (ts : List Token) : Survey := ts.foldl read v

theorem readAll_append (v : Survey) (ts ts' : List Token) :
    v.readAll (ts ++ ts') = (v.readAll ts).readAll ts' := List.foldl_append

/-- Sites are only added. -/
theorem sites_prefix_readAll (v : Survey) (ts : List Token) : v.sites <+: (v.readAll ts).sites := by
  induction ts generalizing v with
  | nil => exact List.prefix_rfl
  | cons t ts ih =>
    refine List.IsPrefix.trans ?_ (ih (v.read t))
    simp only [read]
    split
    · exact List.prefix_append _ _
    · exact List.prefix_rfl

/-! ### Tokens that declare nothing -/

/-- Where no name is due, a token only moves the survey on. -/
theorem read_of_stage {v : Survey} {t : Token} {stage : Stage}
    (hname : ∀ place, v.stage ≠ .name place) (hstage : v.stage.next t.kind = stage)
    (hresult : stage ≠ .result) : v.read t = { v with stage := stage } := by
  subst hstage
  have hsites : (v.read t).sites = v.sites := by
    simp only [read]
    split
    · rename_i place _ h _
      exact absurd h (hname place)
    · rfl
  simp only [read, if_neg hresult] at hsites ⊢
  rw [hsites]

theorem readAll_of_plain {v : Survey} {ts : List Token} (hstage : v.stage = .elsewhere)
    (hts : ∀ t ∈ ts, t.kind.Plain) : v.readAll ts = v := by
  induction ts with
  | nil => rfl
  | cons t ts ih =>
    rw [List.forall_mem_cons] at hts
    have hread : v.read t = { v with stage := .elsewhere } :=
      read_of_stage (by simp [hstage]) (by rw [hstage, Stage.next_of_plain hts.1]) (by simp)
    show (v.read t).readAll ts = v
    rw [hread, ← hstage]
    exact ih hts.2

/-! ### Tokens that declare a name -/

theorem read_of_name {v : Survey} {t : Token} {place : Place} {name : String}
    (hstage : v.stage = .name place) (hk : t.kind = .identifier name) :
    v.read t = ⟨.more place, v.subroutines, v.sites ++ [⟨v.scope place, name, t.line⟩]⟩ := by
  simp [read, hstage, hk, Stage.next]

/-- The names in the table are those listed for the scope of the place. -/
def Lists (v : Survey) (place : Place) (table : Table) : Prop :=
  ∀ name, (TokenKind.identifier name).WellFormed →
    (table.contains name = true ↔ (v.scope place, name) ∈ v.sites.map Site.key)

theorem scope_le (v : Survey) (place : Place) : v.scope place ≤ v.subroutines := by
  cases place with
  | class_ => exact Nat.zero_le _
  | parameter | local_ => exact Nat.le_refl _

theorem Lists.atStage {v : Survey} {place : Place} {table : Table} (h : v.Lists place table)
    (stage : Stage) : Lists { v with stage := stage } place table := by
  cases place <;> exact h

/-- A name that is listed is put into the table. -/
theorem Lists.define {v : Survey} {place : Place} {table : Table} (h : v.Lists place table)
    (stage : Stage) (name type : String) (kind : VariableKind) (line : Nat) :
    Lists ⟨stage, v.subroutines, v.sites ++ [⟨v.scope place, name, line⟩]⟩ place
      (table.define name type kind) := by
  intro other hother
  have hcontains : (table.define name type kind).contains other = true ↔
      table.contains other = true ∨ name = other := by
    rw [Table.contains, Table.get?_define]
    split
    · simp_all
    · simp_all [Table.contains]
  have hscope : scope ⟨stage, v.subroutines, v.sites ++ [⟨v.scope place, name, line⟩]⟩ place =
      v.scope place := by cases place <;> rfl
  rw [hcontains, h other hother, hscope, List.map_append, List.mem_append, List.map_singleton,
    List.mem_singleton, Site.key, Prod.mk.injEq, eq_comm (a := name)]
  simp

/-- There is a table for variables of the kind, and its names are those listed for their scope. -/
def Records (v : Survey) (kind : VariableKind) (context : Context) : Prop :=
  ∃ table, context.table? kind = some table ∧ v.Lists kind.place table

theorem Records.atStage {v : Survey} {kind : VariableKind} {context : Context}
    (h : v.Records kind context) (stage : Stage) :
    Records { v with stage := stage } kind context := by
  obtain ⟨table, htable, hlists⟩ := h
  exact ⟨table, htable, hlists.atStage stage⟩

/-- Static variables and fields have their table in common. -/
theorem Records.of_isClassLevel {v : Survey} {kind kind' : VariableKind} {context : Context}
    (h : v.Records kind context) (hkind : kind.isClassLevel = true)
    (hkind' : kind'.isClassLevel = true) : v.Records kind' context := by
  cases kind <;> cases hkind <;> cases kind' <;> cases hkind' <;> exact h

/-- The table with which a subroutine starts holds no name that can be declared, and none is listed
for a scope that has just begun. -/
theorem lists_enter {v : Survey} (h : ∀ site ∈ v.sites, site.scope < v.subroutines)
    (className name : String) (kind : SubroutineKind) :
    v.Lists .parameter (Subroutine.enter className name kind).table := by
  intro other hother
  refine ⟨fun hcontains => ?_, fun hmem => ?_⟩
  · cases kind with
    | constructor | function => simp [Subroutine.enter, Table.contains] at hcontains
    | method =>
      simp only [Subroutine.enter, Table.contains, Table.get?_define] at hcontains
      split at hcontains
      · rename_i hthis
        exact absurd hother.1 (by rw [← hthis]; decide)
      · simp at hcontains
  · obtain ⟨site, hsite, hkey⟩ := List.mem_map.mp hmem
    have hlt := h site hsite
    rw [show site.scope = v.subroutines from congrArg Prod.fst hkey] at hlt
    exact absurd hlt (Nat.lt_irrefl _)

theorem records_inside {v : Survey} (h : ∀ site ∈ v.sites, site.scope < v.subroutines)
    (context : Context) (name : String) (kind : SubroutineKind) :
    v.Records .argument (context.inside (Subroutine.enter context.className name kind)) :=
  ⟨_, rfl, lists_enter h context.className name kind⟩

theorem Records.isSome_subroutine {v : Survey} {context : Context}
    (h : v.Records .local_ context) : context.subroutine.isSome = true := by
  obtain ⟨table, htable, -⟩ := h
  obtain ⟨entered, hentered, -⟩ := Option.map_eq_some_iff.mp htable
  rw [hentered]
  rfl

/-! ### Surveys of strict passes -/

/-- No name is listed twice for one scope, and no scope is listed that has not begun. -/
structure Sound (v : Survey) : Prop where
  distinct : Site.Distinct v.sites
  scopes : ∀ site ∈ v.sites, site.scope ≤ v.subroutines

/-- Another name in a scope. -/
theorem Sound.concat {v : Survey} {stage : Stage} {site : Site} (h : v.Sound)
    (hnew : site.key ∉ v.sites.map Site.key) (hscope : site.scope ≤ v.subroutines) :
    Sound ⟨stage, v.subroutines, v.sites ++ [site]⟩ where
  distinct := by
    simp only [Site.Distinct, List.map_append, List.map_singleton]
    exact List.nodup_append.mpr ⟨h.distinct, List.nodup_singleton _, by
      intro key hkey other hother
      rw [List.mem_singleton] at hother
      exact fun heq => hnew (hother ▸ heq ▸ hkey)⟩
  scopes := by
    intro other hother
    obtain hother | hother := List.mem_append.mp hother
    · exact h.scopes other hother
    · rw [List.mem_singleton.mp hother]
      exact hscope

/-- How a survey stands when a strict pass has stopped with a problem. A problem of scanning comes
before the last name taken is declared. -/
structure Halts (v : Survey) (e : Problem) (ts : List Token) : Prop where
  lexical : e.fault.category = .lexical →
    ∃ before t, ts = before ++ [t] ∧ Site.Distinct (v.readAll before).sites
  declaration : e.fault.category = .declaration →
    ∃ before site, (v.readAll ts).sites = before ++ [site] ∧ Site.Distinct before ∧
      site.key ∈ before.map Site.key ∧ e = ⟨site.line, .redeclared site.name⟩
  other : e.fault.category ≠ .lexical → e.fault.category ≠ .declaration →
    Site.Distinct (v.readAll ts).sites

theorem Halts.after {v : Survey} {e : Problem} {ts ts' : List Token}
    (h : (v.readAll ts).Halts e ts') : v.Halts e (ts ++ ts') := by
  refine ⟨fun hlexical => ?_, fun hdeclaration => ?_, fun hl hd => ?_⟩
  · obtain ⟨before, t, rfl, hdistinct⟩ := h.lexical hlexical
    exact ⟨ts ++ before, t, (List.append_assoc _ _ _).symm, by rwa [readAll_append]⟩
  · rw [readAll_append]
    exact h.declaration hdeclaration
  · rw [readAll_append]
    exact h.other hl hd

end Survey

/-- The names that a row of tokens declares, in their order. -/
def declarationSites (ts : List Token) : List Site := (Survey.readAll {} ts).sites

namespace Pass

variable {α β : Type} {v : Survey} {a : TokenStream} {k : TokenKind}
  {post : α → Survey → Prop}

/-- The pass is strict, the stream is that of a text, and all was well so far. Then the pass comes
to an end, which is as required where it succeeds and at one of the stops listed where it fails. -/
def Surveyed (v : Survey) (p : Pass α) (a : TokenStream) (post : α → Survey → Prop) : Prop :=
  a.Genuine → v.Sound → ∃ r b ts, Does true p a r b ts ∧
    match r with
    | .ok x => (v.readAll ts).Sound ∧ post x (v.readAll ts)
    | .error e => v.Halts e ts

theorem Surveyed.bind {p : Pass α} {f : α → Pass β} {post' : β → Survey → Prop}
    (hp : Surveyed v p a post) (hf : ∀ x v' b, post x v' → Surveyed v' (f x) b post') :
    Surveyed v (p >>= f) a post' := by
  intro ha hv
  obtain ⟨r, b, ts, hdoes, hend⟩ := hp ha hv
  cases r with
  | error e => exact ⟨_, b, ts, hdoes.bind_error, hend⟩
  | ok x =>
    have hb : b.Genuine := ha.of_subset (by
      rw [hdoes.covers.ahead_eq]
      exact List.subset_append_right _ _)
    obtain ⟨r', c, ts', hdoes', hend'⟩ := hf x _ b hend.2 hb hend.1
    refine ⟨r', c, ts ++ ts', hdoes.bind hdoes', ?_⟩
    cases r' with
    | error e => exact hend'.after
    | ok y => rwa [Survey.readAll_append]

theorem Surveyed.imp {p : Pass α} {post' : α → Survey → Prop} (h : Surveyed v p a post)
    (himp : ∀ x v', post x v' → post' x v') : Surveyed v p a post' := by
  intro ha hv
  obtain ⟨r, b, ts, hdoes, hend⟩ := h ha hv
  refine ⟨r, b, ts, hdoes, ?_⟩
  cases r with
  | error e => exact hend
  | ok x => exact ⟨hend.1, himp x _ hend.2⟩

/-- Two steps, of which the first leads to a known survey. -/
theorem Surveyed.step {p : Pass α} {f : α → Pass β} {w : Survey} {post : β → Survey → Prop}
    (hp : Surveyed v p a fun _ v' => v' = w) (hf : ∀ x b, Surveyed w (f x) b post) :
    Surveyed v (p >>= f) a post :=
  hp.bind fun x _ b h => h ▸ hf x b

theorem surveyed_current_bind {f : Token → Pass α} (h : Surveyed v (f a.current) a post) :
    Surveyed v (current >>= f) a post := by
  intro ha hv
  obtain ⟨r, b, ts, hdoes, hend⟩ := h ha hv
  exact ⟨r, b, ts, hdoes.current_bind, hend⟩

theorem surveyed_keyword?_bind {f : Option Keyword → Pass α}
    (h : Surveyed v (f a.current.kind.keyword?) a post) : Surveyed v (keyword? >>= f) a post :=
  surveyed_current_bind (f := fun t => f t.kind.keyword?) h

/-- A first step that takes no token. -/
theorem Does.bind_surveyed {p : Pass α} {f : α → Pass β} {x : α} {post : β → Survey → Prop}
    (hp : Does true p a (.ok x) a []) (hf : Surveyed v (f x) a post) :
    Surveyed v (p >>= f) a post := by
  intro ha hv
  obtain ⟨r, b, ts, hdoes, hend⟩ := hf ha hv
  exact ⟨r, b, ts, hp.bind hdoes, hend⟩

theorem surveyed_pure {x : α} (h : post x v) : Surveyed v (pure x) a post :=
  fun _ hv => ⟨_, a, [], does_pure x, hv, h⟩

/-- Outside declarations nothing happens that a survey would notice. -/
theorem Runs.surveyed {p : Pass α} (h : Runs p a) (hstage : v.stage = .elsewhere) :
    Surveyed v p a fun _ v' => v' = v := by
  intro ha hv
  obtain ⟨r, b, ts, hdoes, hts⟩ := h
  refine ⟨r, b, ts, hdoes.mono, ?_⟩
  cases r with
  | ok x =>
    rw [Survey.readAll_of_plain hstage hts]
    exact ⟨hv, rfl⟩
  | error e =>
    have hnothing : ∀ ts', (∀ t ∈ ts', t ∈ ts) → Site.Distinct (v.readAll ts').sites := by
      intro ts' hsub
      rw [Survey.readAll_of_plain hstage fun t ht => hts t (hsub t ht)]
      exact hv.distinct
    refine ⟨fun hlexical => ?_, fun hdeclaration => ?_, fun _ _ => hnothing ts fun _ ht => ht⟩
    · obtain ⟨before, t, rfl⟩ :=
        (List.eq_nil_or_concat' ts).resolve_left (hdoes.covers.ne_nil hlexical)
      exact ⟨before, t, rfl, hnothing before fun _ ht => List.mem_append_left _ ht⟩
    · cases hdoes.covers with
      | walked _ hblame => cases (hblame e rfl).2 hdeclaration
      | stuck hahead =>
        have := ha.lexical e (by simp [hahead])
        rw [this] at hdeclaration
        cases hdeclaration

/-- A complaint about the current token. -/
theorem surveyed_unexpected (what : String) : Surveyed v (unexpected what : Pass α) a post := by
  intro _ hv
  refine ⟨_, a, [], does_unexpected what, ?_, ?_, fun _ _ => hv.distinct⟩ <;> simp [Fault.category]

/-! ## Reading -/

/-- Consuming a token, as the survey sees it. -/
theorem surveyed_next (ha : a.current.kind ≠ .eof) (hsound : v.Sound → (v.read a.current).Sound) :
    Surveyed v next a fun _ v' => v' = v.read a.current := by
  intro hgenuine hv
  obtain ⟨b, hdoes⟩ | ⟨e, b, he, hdoes⟩ := @does_next a true ha
  · exact ⟨_, b, _, hdoes, hsound hv, rfl⟩
  · have hlexical := hgenuine.lexical e he
    refine ⟨_, b, _, hdoes, fun _ => ⟨[], a.current, rfl, hv.distinct⟩, ?_, ?_⟩ <;> simp [hlexical]

/-- Where no name is due, consuming a token moves the survey on. -/
theorem surveyed_next_of_stage {stage : Stage} (hk : a.current.kind = k) (hne : k ≠ .eof)
    (hname : ∀ place, v.stage ≠ .name place) (hstage : v.stage.next k = stage)
    (hresult : stage ≠ .result) :
    Surveyed v next a fun _ v' => v' = { v with stage := stage } := by
  subst hk
  have hread : v.read a.current = { v with stage := stage } :=
    Survey.read_of_stage hname hstage hresult
  rw [← hread]
  refine surveyed_next hne fun hv => ?_
  rw [hread]
  exact ⟨hv.distinct, hv.scopes⟩

section Reading

variable {stage : Stage} (hname : ∀ place, v.stage ≠ .name place)

include hname

theorem surveyed_accept_bind {f : Bool → Pass α} (hne : k ≠ .eof)
    (hstage : v.stage.next k = stage) (hresult : stage ≠ .result)
    (htrue : ∀ b, Surveyed { v with stage := stage } (f true) b post)
    (hfalse : ∀ b, Surveyed v (f false) b post) : Surveyed v (accept k >>= f) a post := by
  have haccept : Surveyed v (accept k) a fun found v' =>
      v' = if found then { v with stage := stage } else v := by
    refine surveyed_current_bind ?_
    split
    · rename_i hk
      exact (surveyed_next_of_stage hk hne hname hstage hresult).step fun _ _ =>
        surveyed_pure (by simp)
    · exact surveyed_pure rfl
  refine haccept.bind fun found v' b hv' => ?_
  subst hv'
  cases found with
  | true => exact htrue b
  | false => exact hfalse b

theorem surveyed_expect (hne : k ≠ .eof) (hstage : v.stage.next k = stage)
    (hresult : stage ≠ .result) :
    Surveyed v (expect k) a fun _ v' => v' = { v with stage := stage } := by
  refine surveyed_current_bind ?_
  split
  · rename_i hk
    exact surveyed_next_of_stage hk hne hname hstage hresult
  · exact surveyed_unexpected _

theorem surveyed_punctuation {y : Symbol} (hstage : v.stage.next (.symbol y) = stage)
    (hresult : stage ≠ .result) :
    Surveyed v (punctuation y) a fun _ v' => v' = { v with stage := stage } :=
  (surveyed_expect hname (by simp) hstage hresult).step fun _ _ => surveyed_pure rfl

theorem surveyed_expectName (hstage : ∀ name, v.stage.next (.identifier name) = stage)
    (hresult : stage ≠ .result) :
    Surveyed v expectName a fun _ v' => v' = { v with stage := stage } := by
  refine surveyed_current_bind ?_
  split
  · rename_i name hk
    exact (surveyed_next_of_stage hk (by simp) hname (hstage name) hresult).step fun _ _ =>
      surveyed_pure rfl
  · exact surveyed_unexpected _

theorem surveyed_typeName (hkeyword : ∀ w, v.stage.next (.keyword w) = stage)
    (hstage : ∀ name, v.stage.next (.identifier name) = stage) (hresult : stage ≠ .result) :
    Surveyed v typeName a fun _ v' => v' = { v with stage := stage } := by
  refine surveyed_current_bind ?_
  split
  · rename_i w hk
    by_cases hw : w.isType = true
    · simp only [hw]
      exact (surveyed_next_of_stage hk (by simp) hname (hkeyword w) hresult).step fun _ _ =>
        surveyed_pure rfl
    · simp only [hw]
      exact surveyed_unexpected _
  · exact surveyed_expectName hname hstage hresult
  · exact surveyed_unexpected _

end Reading

/-! ## Variables -/

section Declarations

variable {options : Options} (hstrict : options.strict = true)

include hstrict

/-- A name is declared where it is listed, and refused where it has been listed before. -/
theorem surveyed_declaredName {kind : VariableKind} {context : Context}
    (hstage : v.stage = .name kind.place) (hrecords : v.Records kind context) (type : String) :
    Surveyed v (declaredName options type kind context) a fun context' v' =>
      v'.stage = .more kind.place ∧ v'.Records kind context' := by
  obtain ⟨table, htable, hlists⟩ := hrecords
  refine surveyed_current_bind (f := fun t => do
    let name ← expectName
    declare options context name type kind t.line) ?_
  by_cases hk : ∃ name, a.current.kind = .identifier name
  · obtain ⟨name, hk⟩ := hk
    intro hgenuine hv
    have hname : (TokenKind.identifier name).WellFormed :=
      hk ▸ hgenuine.current.resolve_left (by simp [hk])
    have hread := Survey.read_of_name hstage hk
    obtain ⟨b, hdoes⟩ | ⟨e, b, he, hdoes⟩ := @does_expectName a true name hk
    · have hdeclare : Does options.strict (declare options context name type kind a.current.line)
          b _ b [] := does_declare htable name type a.current.line
      rw [hstrict, Bool.true_and] at hdeclare
      refine ⟨_, b, [a.current], hdoes.bind hdeclare, ?_⟩
      by_cases hcontains : table.contains name = true
      · rw [if_pos hcontains]
        refine ⟨by simp [Fault.category], fun _ => ?_, by simp [Fault.category]⟩
        refine ⟨v.sites, _, congrArg Survey.sites hread, hv.distinct, ?_, rfl⟩
        exact (hlists name hname).mp hcontains
      · rw [if_neg hcontains]
        show (v.read a.current).Sound ∧ (v.read a.current).stage = _ ∧
          (v.read a.current).Records _ _
        rw [hread]
        refine ⟨hv.concat ?_ (v.scope_le kind.place), rfl, _, Context.table?_setTable htable _, ?_⟩
        · exact fun hmem => hcontains ((hlists name hname).mpr hmem)
        · exact hlists.define _ name type kind a.current.line
    · have hlexical := hgenuine.lexical e he
      refine ⟨_, b, _, hdoes.bind_error, fun _ => ⟨[], a.current, rfl, hv.distinct⟩, ?_, ?_⟩
      all_goals simp [hlexical]
  · refine Surveyed.bind (surveyed_current_bind ?_) fun _ _ _ => False.elim
    split
    · rename_i name hname
      exact absurd ⟨name, hname⟩ hk
    · exact surveyed_unexpected _

theorem surveyed_declaredNames {kind : VariableKind} (hkind : kind ≠ .argument) (type : String)
    (bound : Nat) :
    ∀ {v : Survey} {context : Context} {a : TokenStream}, v.stage = .name kind.place →
      v.Records kind context →
      Surveyed v (declaredNames options type kind bound context) a fun context' v' =>
        v'.stage = .more kind.place ∧ v'.Records kind context' := by
  induction bound with
  | zero => exact fun _ _ => surveyed_unexpected _
  | succ bound ih =>
    intro v context a hstage hrecords
    refine (surveyed_declaredName hstrict hstage hrecords type).bind fun context v b h => ?_
    have hcomma : v.stage.next (.symbol .comma) = .name kind.place := by
      rw [h.1]
      cases kind with
      | argument => exact absurd rfl hkind
      | static | field | local_ => rfl
    exact surveyed_accept_bind (by simp [h.1]) (by simp) hcomma (by simp)
      (fun _ => ih rfl (h.2.atStage _)) fun _ => surveyed_pure h

theorem surveyed_declaration {kind : VariableKind} (hkind : kind ≠ .argument) {context : Context}
    (hstage : v.stage = .type kind.place) (hrecords : v.Records kind context) (bound : Nat) :
    Surveyed v (declaration options kind bound context) a fun context' v' =>
      v'.stage = .elsewhere ∧ v'.Records kind context' := by
  have hnext : ∀ k, k ≠ .symbol .rightParen → v.stage.next k = .name kind.place := by
    intro k hk
    rw [hstage]
    cases kind with
    | argument => exact absurd rfl hkind
    | static | field | local_ => rfl
  refine (surveyed_typeName (by simp [hstage]) (fun w => hnext _ (by simp))
    (fun name => hnext _ (by simp)) (by simp)).step fun type b => ?_
  refine (surveyed_declaredNames hstrict hkind type bound rfl (hrecords.atStage _)).bind
    fun context v' c h => ?_
  have hend : v'.stage.next (.symbol .semicolon) = .elsewhere := by
    rw [h.1]
    cases kind <;> rfl
  exact (surveyed_punctuation (by simp [h.1]) hend (by simp)).step fun _ _ =>
    surveyed_pure ⟨rfl, h.2.atStage _⟩

theorem surveyed_classVariables (bound : Nat) :
    ∀ {v : Survey} {context : Context} {a : TokenStream}, v.stage = .elsewhere →
      v.Records .static context →
      Surveyed v (classVariables options bound context) a fun _ v' => v'.stage = .elsewhere := by
  induction bound with
  | zero => exact fun hstage _ => surveyed_pure hstage
  | succ bound ih =>
    intro v context a hstage hrecords
    rw [classVariables, entering_eq]
    refine surveyed_keyword?_bind ?_
    cases hkind : a.current.kind.keyword?.bind classVariable? with
    | none => exact surveyed_pure hstage
    | some kind =>
      obtain ⟨w, hw, hkind⟩ := Option.bind_eq_some_iff.mp hkind
      have hnext : v.stage.next (.keyword w) = .type .class_ := by
        rw [hstage]
        cases w <;> first | rfl | cases hkind
      have hclass : kind.isClassLevel = true := by
        cases w <;> cases hkind <;> rfl
      have hplace : Place.class_ = kind.place := by
        cases kind <;> first | rfl | cases hclass
      refine (surveyed_next_of_stage (TokenKind.keyword?_eq_some.mp hw) (by simp)
        (by simp [hstage]) hnext (by simp)).step fun _ b => ?_
      refine (surveyed_declaration hstrict (by rintro rfl; cases hclass)
        (congrArg Stage.type hplace) ((hrecords.of_isClassLevel rfl hclass).atStage _)
        bound).bind fun context v' c h => ?_
      exact ih h.1 (h.2.of_isClassLevel hclass rfl)

theorem surveyed_localVariables (bound : Nat) :
    ∀ {v : Survey} {context : Context} {a : TokenStream}, v.stage = .elsewhere →
      v.Records .local_ context →
      Surveyed v (localVariables options bound context) a fun context' v' =>
        v'.stage = .elsewhere ∧ v'.Records .local_ context' := by
  induction bound with
  | zero => exact fun hstage hrecords => surveyed_pure ⟨hstage, hrecords⟩
  | succ bound ih =>
    intro v context a hstage hrecords
    have hnext : v.stage.next (.keyword .var) = .type .local_ := by rw [hstage]; rfl
    refine surveyed_accept_bind (by simp [hstage]) (by simp) hnext (by simp) (fun b => ?_)
      fun _ => surveyed_pure ⟨hstage, hrecords⟩
    exact (surveyed_declaration hstrict (by simp) (by rfl) (hrecords.atStage _) bound).bind
      fun context v' c h => ih h.1 h.2

theorem surveyed_parameters (bound : Nat) :
    ∀ {v : Survey} {context : Context} {a : TokenStream}, v.stage = .type .parameter →
      v.Records .argument context →
      Surveyed v (parameters options bound context) a fun context' v' =>
        v'.stage = .more .parameter ∧ v'.Records .argument context' := by
  induction bound with
  | zero => exact fun _ _ => surveyed_unexpected _
  | succ bound ih =>
    intro v context a hstage hrecords
    refine (surveyed_typeName (by simp [hstage]) (fun w => by rw [hstage]; rfl)
      (fun name => by rw [hstage]; rfl) (by simp)).step fun type b => ?_
    refine (surveyed_declaredName hstrict (by rfl) (hrecords.atStage _) type).bind
      fun context v c h => ?_
    have hcomma : v.stage.next (.symbol .comma) = .type .parameter := by rw [h.1]; rfl
    exact surveyed_accept_bind (by simp [h.1]) (by simp) hcomma (by simp)
      (fun _ => ih rfl (h.2.atStage _)) fun _ => surveyed_pure h

theorem surveyed_parameterList {context : Context} (hstage : v.stage = .type .parameter)
    (hrecords : v.Records .argument context) (bound : Nat) :
    Surveyed v (parameterList options bound context) a fun context' v' =>
      (v'.stage = .type .parameter ∨ v'.stage = .more .parameter) ∧
        v'.Records .argument context' := by
  refine surveyed_current_bind (f := fun t =>
    if t.kind.symbol? = some .rightParen then pure context
    else parameters options bound context) ?_
  split
  · exact surveyed_pure ⟨.inl hstage, hrecords⟩
  · exact (surveyed_parameters hstrict bound hstage hrecords).imp fun _ _ h => ⟨.inr h.1, h.2⟩

/-! ## Subroutines -/

/-- The parameters, with their parentheses. -/
theorem surveyed_parenthesized {context : Context} (hstage : v.stage = .opening)
    (hrecords : v.Records .argument context) (bound : Nat) :
    Surveyed v (parenthesized (parameterList options bound context)) a fun context' v' =>
      v'.stage = .elsewhere ∧ v'.Records .local_ context' := by
  have hopen : v.stage.next (.symbol .leftParen) = .type .parameter := by rw [hstage]; rfl
  refine (surveyed_punctuation (by simp [hstage]) hopen (by simp)).step fun _ b => ?_
  refine (surveyed_parameterList hstrict rfl (hrecords.atStage _) bound).bind
    fun context v' c h => ?_
  have hclose : v'.stage.next (.symbol .rightParen) = .elsewhere := by
    obtain h | h := h.1 <;> rw [h] <;> rfl
  have hquiet : ∀ place, v'.stage ≠ .name place := by
    obtain h | h := h.1 <;> simp [h]
  exact (surveyed_punctuation hquiet hclose (by simp)).step fun _ _ =>
    surveyed_pure ⟨rfl, h.2.atStage _⟩

/-- A subroutine whose scope has just begun. -/
theorem surveyed_subroutine (hstage : v.stage = .result)
    (hfresh : ∀ site ∈ v.sites, site.scope < v.subroutines) (context : Context) (bound : Nat)
    (kind : SubroutineKind) :
    Surveyed v (subroutine options context bound kind) a fun _ v' => v'.stage = .elsewhere := by
  have hrest : ∀ b, Surveyed { v with stage := .title } (do
      let name ← expectName
      let entered ← enter context.className name kind
      let context ← parenthesized (parameterList options bound (context.inside entered))
      braced do
        let context ← localVariables options bound context
        body options context bound) b fun _ v' => v'.stage = .elsewhere := by
    intro b
    refine (surveyed_expectName (by simp) (fun _ => rfl) (by simp)).step fun name c => ?_
    refine (does_enter context.className name kind).bind_surveyed ?_
    have hrecords := Survey.records_inside (v := { v with stage := .opening }) hfresh context name
      kind
    refine (surveyed_parenthesized hstrict rfl hrecords bound).bind fun context v' d h => ?_
    refine ((regular_punctuation _ d).surveyed h.1).step fun _ d => ?_
    refine Surveyed.bind ?_ fun _ v'' d (h' : v''.stage = .elsewhere) =>
      ((regular_punctuation _ d).surveyed h').step fun _ _ => surveyed_pure h'
    refine (surveyed_localVariables hstrict bound h.1 h.2).bind fun context v'' d h' => ?_
    exact ((regular_body options h'.2.isSome_subroutine bound d).surveyed h'.1).imp
      fun _ _ hv => hv ▸ h'.1
  have htitle : ∀ k, v.stage.next k = .title := by simp [hstage, Stage.next]
  refine surveyed_accept_bind (by simp [hstage]) (by simp) (htitle _) (by simp) hrest fun b => ?_
  exact (surveyed_typeName (by simp [hstage]) (fun _ => htitle _) (fun _ => htitle _)
    (by simp)).step fun _ => hrest

theorem surveyed_subroutines (context : Context) (bound : Nat) :
    ∀ {v : Survey} {a : TokenStream}, v.stage = .elsewhere →
      Surveyed v (subroutines options context bound) a fun _ v' => v'.stage = .elsewhere := by
  induction bound with
  | zero => exact fun hstage => surveyed_pure hstage
  | succ bound ih =>
    intro v a hstage
    rw [subroutines, entering_eq]
    refine surveyed_keyword?_bind ?_
    cases hkind : a.current.kind.keyword?.bind subroutineKind? with
    | none => exact surveyed_pure hstage
    | some kind =>
      obtain ⟨w, hw, hkind⟩ := Option.bind_eq_some_iff.mp hkind
      have hk := TokenKind.keyword?_eq_some.mp hw
      have hstart : Stage.next .elsewhere (.keyword w) = .result := by
        cases w <;> first | rfl | cases hkind
      -- the keyword begins a scope, for which nothing is listed yet
      have hread : v.read a.current = ⟨.result, v.subroutines + 1, v.sites⟩ := by
        simp [Survey.read, hstage, hk, hstart]
      have hnext : Surveyed v next a fun _ v' => v' = ⟨.result, v.subroutines + 1, v.sites⟩ := by
        rw [← hread]
        refine surveyed_next (TokenKind.ne_eof_of_keyword? hw) fun hv => ?_
        rw [hread]
        exact ⟨hv.distinct, fun site hsite => Nat.le_succ_of_le (hv.scopes site hsite)⟩
      intro hgenuine hv
      have hfresh : ∀ site ∈ v.sites, site.scope < v.subroutines + 1 := fun site hsite =>
        Nat.lt_succ_of_le (hv.scopes site hsite)
      have hsteps : Surveyed v (do
          let _ ← next
          subroutine options context bound kind
          subroutines options context bound) a fun _ v' => v'.stage = .elsewhere :=
        hnext.step fun _ b => (surveyed_subroutine hstrict rfl hfresh context bound kind).bind
          fun _ _ _ h => ih h
      exact hsteps hgenuine hv

/-! ## The unit -/

theorem surveyed_classDeclaration (bound : Nat) (a : TokenStream) :
    Surveyed {} (classDeclaration options bound) a fun _ v' => v'.stage = .elsewhere := by
  refine ((regular_keyword (by rfl) a).surveyed rfl).step fun _ b => ?_
  refine ((regular_expectName b).surveyed rfl).step fun className c => ?_
  refine (does_note _).bind_surveyed ?_
  have hempty : Survey.Records {} .static { className } :=
    ⟨Table.empty, rfl, fun name _ => by simp [Table.contains]⟩
  refine ((regular_punctuation _ c).surveyed rfl).step fun _ d => Surveyed.bind ?_
    fun _ v' d (h : v'.stage = .elsewhere) =>
      ((regular_punctuation _ d).surveyed h).step fun _ _ => surveyed_pure h
  refine (surveyed_classVariables hstrict bound rfl hempty).bind fun context v d h => ?_
  exact (does_showTable _ _ _).bind_surveyed (surveyed_subroutines hstrict context bound h)

theorem surveyed_compilationUnit (bound : Nat) (a : TokenStream) :
    Surveyed {} (compilationUnit options bound) a fun _ _ => True :=
  (surveyed_classDeclaration hstrict bound a).bind fun _ _ d h =>
    ((regular_finish d).surveyed h).imp fun _ _ _ => trivial

end Declarations

end Pass

end Jack
