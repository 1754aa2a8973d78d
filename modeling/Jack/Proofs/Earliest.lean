import Jack.Proofs.Language
import Jack.Proofs.Pass.Alike
import Jack.Proofs.Pass.Completion
import Jack.Proofs.Pass.Progress
import Jack.Proofs.Syntax.Unambiguous
import Jack.Proofs.Token.Layout

/-!
# Complaints come as early as they can

A complaint about an unexpected token comes at the first token that no text which compiles can have
there. What was read before it is the beginning of a text that compiles, and with the token found it
is none. There is one exception: after a `let` where no variable is declared (`BareLet`) the
complaint is about the token that follows, although no text that goes on from the `let` compiles.
Names are looked up only when they have been read.

1. A `let` in a valid block needs a declared name (`Statement.exists_target`), so no class that
   meets the conditions goes on from a bare `let` (`BareLet.not_admitted`).
2. A run does the same on all streams that are alike up to where it stops, so a text with the same
   tokens does not compile (`not_compiles_of_found`).
3. What was consumed can be completed to a class that meets the conditions (`exists_completion`).
4. `expected_is_earliest` puts the two directions together.
-/

namespace Jack

/-! ## Targets of assignments -/

mutual

theorem Term.let_notMem_tokens : ∀ t : Term, .keyword .let_ ∉ t.tokens
  | .integer _ _ | .string _ | .var _ => by simp [Term.tokens]
  | .word w => by cases w <;> simp [Term.tokens, ValueWord.keyword]
  | .element _ index => by
    have := index.let_notMem_tokens
    simp [Term.tokens, enclosed, this]
  | .call c => by
    have := c.let_notMem_tokens
    simpa [Term.tokens] using this
  | .parenthesized inner => by
    have := inner.let_notMem_tokens
    simp [Term.tokens, enclosed, this]
  | .unary _ operand => by
    have := operand.let_notMem_tokens
    simp [Term.tokens, this]

theorem Expression.let_notMem_tokens : ∀ e : Expression, .keyword .let_ ∉ e.tokens
  | .mk first rest => by
    have hfirst := first.let_notMem_tokens
    have hrest := Expression.let_notMem_restTokens rest
    simp [Expression.tokens, hfirst, hrest]

theorem Expression.let_notMem_restTokens :
    ∀ rest : List (BinaryOperator × Term), .keyword .let_ ∉ Expression.restTokens rest
  | [] => by simp [Expression.restTokens]
  | (_, operand) :: rest => by
    have hoperand := operand.let_notMem_tokens
    have hrest := Expression.let_notMem_restTokens rest
    simp [Expression.restTokens, hoperand, hrest]

theorem Call.let_notMem_tokens : ∀ c : Call, .keyword .let_ ∉ c.tokens
  | .mk receiver _ arguments => by
    have := Call.let_notMem_argumentTokens arguments
    cases receiver <;> simp [Call.tokens, Call.headTokens, enclosed, this]

theorem Call.let_notMem_argumentTokens :
    ∀ es : List Expression, .keyword .let_ ∉ Call.argumentTokens es
  | [] => by simp [Call.argumentTokens]
  | e :: more => by
    have he := e.let_notMem_tokens
    have hmore := Call.let_notMem_moreTokens more
    simp [Call.argumentTokens, he, hmore]

theorem Call.let_notMem_moreTokens :
    ∀ es : List Expression, .keyword .let_ ∉ Call.moreTokens es
  | [] => by simp [Call.moreTokens]
  | e :: more => by
    have he := e.let_notMem_tokens
    have hmore := Call.let_notMem_moreTokens more
    simp [Call.moreTokens, he, hmore]

end

section Targets

variable {env : Environment}

mutual

/-- Where something is assigned to, a name is declared. -/
theorem Statement.exists_target : ∀ t : Statement, t.Valid env → .keyword .let_ ∈ t.tokens →
    ∃ name, env.Declares name ∧ .identifier name ∈ t.tokens
  | .let_ name _, h, _ => ⟨name, h.1, by simp [Statement.tokens]⟩
  | .letElement name _ _, h, _ => ⟨name, h.1, by simp [Statement.tokens]⟩
  | .if_ condition yes, h, hmem => by
    have hcondition := condition.let_notMem_tokens
    simp only [Statement.tokens, enclosed, List.mem_cons, List.mem_append, reduceCtorEq,
      TokenKind.keyword.injEq, hcondition, List.not_mem_nil, or_false, false_or] at hmem ⊢
    obtain ⟨name, hname, hin⟩ := Statement.exists_target_block yes h.2 hmem
    exact ⟨name, hname, .inr hin⟩
  | .ifElse condition yes no, h, hmem => by
    have hcondition := condition.let_notMem_tokens
    simp only [Statement.tokens, enclosed, List.mem_cons, List.mem_append, reduceCtorEq,
      TokenKind.keyword.injEq, hcondition, List.not_mem_nil, or_false, false_or] at hmem ⊢
    obtain hmem | hmem := hmem
    · obtain ⟨name, hname, hin⟩ := Statement.exists_target_block yes h.2.1 hmem
      exact ⟨name, hname, .inr (.inl hin)⟩
    · obtain ⟨name, hname, hin⟩ := Statement.exists_target_block no h.2.2 hmem
      exact ⟨name, hname, .inr (.inr hin)⟩
  | .while_ condition body, h, hmem => by
    have hcondition := condition.let_notMem_tokens
    simp only [Statement.tokens, enclosed, List.mem_cons, List.mem_append, reduceCtorEq,
      TokenKind.keyword.injEq, hcondition, List.not_mem_nil, or_false, false_or] at hmem ⊢
    obtain ⟨name, hname, hin⟩ := Statement.exists_target_block body h.2 hmem
    exact ⟨name, hname, .inr hin⟩
  | .do_ call, _, hmem => by
    have := call.let_notMem_tokens
    simp [Statement.tokens, this] at hmem
  | .return_ none, _, hmem => by simp [Statement.tokens] at hmem
  | .return_ (some value), _, hmem => by
    have := value.let_notMem_tokens
    simp [Statement.tokens, this] at hmem

theorem Statement.exists_target_block : ∀ ts : List Statement, Statement.BlockValid env ts →
    .keyword .let_ ∈ Statement.blockTokens ts →
    ∃ name, env.Declares name ∧ .identifier name ∈ Statement.blockTokens ts
  | [], _, hmem => by simp [Statement.blockTokens] at hmem
  | t :: ts, h, hmem => by
    obtain hmem | hmem := List.mem_append.mp hmem
    · obtain ⟨name, hname, hin⟩ := Statement.exists_target t h.1 hmem
      exact ⟨name, hname, List.mem_append_left _ hin⟩
    · obtain ⟨name, hname, hin⟩ := Statement.exists_target_block ts h.2 hmem
      exact ⟨name, hname, List.mem_append_right _ hin⟩

end

end Targets

/-! ## A `let` with nothing to assign to -/

/-- The tokens end with a `let` in a subroutine without parameters and locals, of a class without
variables. -/
def BareLet (ks : List TokenKind) : Prop :=
  ∃ (name : String) (before : List SubroutineDec) (d : SubroutineDec) (body rest : List TokenKind),
    d.parameters = [] ∧ d.locals = [] ∧
    Statement.blockTokens d.body = body ++ .keyword .let_ :: rest ∧
    ks = .keyword .class_ :: .identifier name :: .symbol .leftBrace ::
      (before.flatMap SubroutineDec.tokens ++ (d.opening ++ (body ++ [.keyword .let_])))

/-- A name that is read is declared nowhere, so nothing is. -/
theorem bareLet_of_bareAt {c : ClassDec} {ks : List TokenKind} (h : Pass.BareAt c ks)
    (hks : ∀ k ∈ ks, k.WellFormed) : BareLet ks := by
  obtain ⟨before, d, ks', hsub, ⟨body, rest, rfl, hbody, hlast, hnone⟩, rfl⟩ := h
  have hvars : c.vars = [] := by
    by_contra hne
    obtain ⟨v, vs, hv⟩ := List.exists_cons_of_ne_nil hne
    refine hnone v.vars.first (hks _ ?_) ((Environment.declares_iff c d _).mpr (.inr ?_))
    · simp [hv, ClassVariableDec.tokens, VariableDec.tokens]
    · simp [ClassDec.declarations, hv, VariableDec.declarations, VariableDec.names]
  have hparameters : d.parameters = [] := by
    by_contra hne
    obtain ⟨p, ps, hp⟩ := List.exists_cons_of_ne_nil hne
    refine hnone p.name (hks _ ?_) ((Environment.declares_iff c d _).mpr (.inl ?_))
    · simp [SubroutineDec.opening, enclosed, hp, Parameter.listTokens, Parameter.tokens]
    · simp [SubroutineDec.scope, SubroutineDec.declarations, SubroutineDec.arguments, hp]
  have hlocals : d.locals = [] := by
    by_contra hne
    obtain ⟨v, vs, hv⟩ := List.exists_cons_of_ne_nil hne
    refine hnone v.first (hks _ ?_) ((Environment.declares_iff c d _).mpr (.inl ?_))
    · simp [SubroutineDec.opening, SubroutineDec.localTokens, hv, VariableDec.tokens]
    · simp [SubroutineDec.scope, SubroutineDec.declarations, SubroutineDec.localVariables, hv,
        VariableDec.declarations, VariableDec.names]
  obtain ⟨body, rfl⟩ := List.getLast?_eq_some_iff.mp hlast
  exact ⟨c.name, before, d, body, rest, hparameters, hlocals, by simp [hbody], by simp [hvars]⟩

/-- Things in a row that are the first of others in a row. -/
theorem flatMap_append_split {α : Type} (tokens : α → List TokenKind)
    (stop : List TokenKind → Prop)
    (hinj : ∀ {a a' : α} {r r' : List TokenKind}, tokens a ++ r = tokens a' ++ r' → a = a' ∧ r = r')
    (hstop : ∀ (a : α) (r : List TokenKind), ¬ stop (tokens a ++ r)) :
    ∀ (as as' : List α) {r r' : List TokenKind}, stop r' →
      as.flatMap tokens ++ r = as'.flatMap tokens ++ r' →
      ∃ more, as' = as ++ more ∧ r = more.flatMap tokens ++ r'
  | [], as', r, r', _, h => ⟨as', rfl, h⟩
  | a :: as, [], r, r', hr', h => by
    rw [List.flatMap_nil, List.nil_append, List.flatMap_cons, List.append_assoc] at h
    exact absurd (h ▸ hr') (hstop a _)
  | a :: as, a' :: as', r, r', hr', h => by
    rw [List.flatMap_cons, List.flatMap_cons, List.append_assoc, List.append_assoc] at h
    obtain ⟨rfl, hrest⟩ := hinj h
    obtain ⟨more, rfl, hmore⟩ := flatMap_append_split tokens stop hinj hstop as as' hr' hrest
    exact ⟨more, rfl, hmore⟩

/-- Where a block has a statement, no local variables are declared. -/
theorem SubroutineDec.locals_eq_nil_of_block {vs : List VariableDec} {ts : List Statement}
    {body rest r r' : List TokenKind}
    (hblock : Statement.blockTokens ts = body ++ .keyword .let_ :: rest)
    (h : localTokens vs ++ r = body ++ .keyword .let_ :: r') : vs = [] := by
  cases vs with
  | nil => rfl
  | cons v vs =>
    obtain ⟨ks, hks⟩ : ∃ ks, Statement.blockTokens ts = .keyword .var :: ks := by
      cases body with
      | nil => simp [localTokens] at h
      | cons k body =>
        obtain ⟨rfl, -⟩ := List.cons.inj h
        exact ⟨_, hblock⟩
    cases ts with
    | nil => simp [Statement.blockTokens] at hks
    | cons t ts =>
      obtain ⟨w, ls, hls, hstarts⟩ := t.tokens_cons
      obtain rfl : w = .var := by
        simpa [Statement.blockTokens, hls] using congrArg List.head? hks
      simp [Keyword.StartsStatement] at hstarts

/-- A block that begins like another one, up to a `let` of that one, has the `let`. -/
theorem Statement.let_mem_blockTokens {ts ts' : List Statement} {body rest r r' : List TokenKind}
    (hblock : Statement.blockTokens ts = body ++ .keyword .let_ :: rest)
    (h : Statement.blockTokens ts' ++ .symbol .rightBrace :: r = body ++ .keyword .let_ :: r') :
    .keyword .let_ ∈ Statement.blockTokens ts' := by
  obtain ⟨ks, hks, hrest⟩ | ⟨ks, hks, hrest⟩ := List.append_eq_append_iff.mp h
  · -- the other block would have a brace where this one ends, and go on after it
    cases ks with
    | nil => simp at hrest
    | cons k ks =>
      obtain ⟨rfl, -⟩ := List.cons.inj hrest
      have hlonger : Statement.blockTokens ts ++ .symbol .rightBrace :: [] =
          Statement.blockTokens ts' ++ .symbol .rightBrace ::
            (ks ++ .keyword .let_ :: (rest ++ [.symbol .rightBrace])) := by
        simp [hblock, hks]
      exact absurd (Statement.blockTokens_append_inj _ _ hlonger).2 (by simp)
  · cases ks with
    | nil => simp at hrest
    | cons k ks =>
      obtain ⟨rfl, -⟩ := List.cons.inj hrest
      simp [hks]

/-- A subroutine that begins like one without parameters and locals, up to a `let` in its block,
has none of them either, and the `let` is in its block. -/
theorem SubroutineDec.let_mem_of_opening {d d' : SubroutineDec} {body rest r r' : List TokenKind}
    (hparameters : d.parameters = []) (hlocals : d.locals = [])
    (hbody : Statement.blockTokens d.body = body ++ .keyword .let_ :: rest)
    (h : d'.tokens ++ r = d.opening ++ (body ++ .keyword .let_ :: r')) :
    d'.parameters = [] ∧ d'.locals = [] ∧ .keyword .let_ ∈ Statement.blockTokens d'.body := by
  rw [tokens_eq_opening] at h
  simp only [opening, hparameters, hlocals, enclosed, localTokens, List.flatMap_nil,
    List.cons_append, List.append_assoc, List.nil_append, List.cons.injEq] at h
  obtain ⟨-, -, -, -, h⟩ := h
  obtain ⟨hparameters', h⟩ := Parameter.listTokens_append_inj h
  have hblock := (List.cons.inj h).2
  have hlocals' : d'.locals = [] := locals_eq_nil_of_block hbody hblock
  rw [hlocals', List.flatMap_nil, List.nil_append] at hblock
  exact ⟨hparameters', hlocals', Statement.let_mem_blockTokens hbody hblock⟩

/-- A class whose members begin with a subroutine has no variables. -/
theorem ClassDec.vars_eq_nil {vs : List ClassVariableDec} {ds : List SubroutineDec}
    {d : SubroutineDec} {r r' : List TokenKind}
    (h : vs.flatMap ClassVariableDec.tokens ++ r =
      ds.flatMap SubroutineDec.tokens ++ (d.opening ++ r')) : vs = [] := by
  cases vs with
  | nil => rfl
  | cons v vs =>
    obtain ⟨kind, hkind⟩ : ∃ kind : SubroutineKind, v.storage.keyword = kind.keyword := by
      cases ds with
      | nil => exact ⟨d.kind, TokenKind.keyword.inj (List.cons.inj h).1⟩
      | cons b ds => exact ⟨b.kind, TokenKind.keyword.inj (List.cons.inj h).1⟩
    cases hstorage : v.storage <;> cases kind <;>
      simp [hstorage, ClassStorage.keyword, SubroutineKind.keyword] at hkind

/-- In a subroutine without parameters and locals, of a class without variables, only the receiver
of a method is declared. -/
theorem Environment.eq_this_of_declares {c : ClassDec} {d : SubroutineDec} {name : String}
    (hvars : c.vars = []) (hparameters : d.parameters = []) (hlocals : d.locals = [])
    (h : (SubroutineDec.environment c d).Declares name) : name = "this" := by
  obtain hscope | hclass := (Environment.declares_iff c d name).mp h
  · have hreceiver : name ∈ (d.receiver c.name).map Declaration.name := by
      simpa [SubroutineDec.scope, SubroutineDec.declarations, SubroutineDec.arguments,
        SubroutineDec.localVariables, hparameters, hlocals] using hscope
    cases hkind : d.kind with
    | method => simpa [SubroutineDec.receiver, hkind] using hreceiver
    | constructor => simp [SubroutineDec.receiver, hkind] at hreceiver
    | function => simp [SubroutineDec.receiver, hkind] at hreceiver
  · simp [ClassDec.declarations, hvars] at hclass

/-- **A bare `let`.** No class that meets the conditions goes on from there. -/
theorem BareLet.not_admitted {options : Options} {c : ClassDec} {ks ls : List TokenKind}
    (h : BareLet ks) (htokens : c.tokens = ks ++ ls) (hwellFormed : ∀ k ∈ c.tokens, k.WellFormed) :
    ¬ c.Admitted options := by
  intro hadmitted
  obtain ⟨name, before, d, body, rest, hparameters, hlocals, hbody, rfl⟩ := h
  obtain ⟨-, hmembers⟩ : c.name = name ∧ c.vars.flatMap ClassVariableDec.tokens ++
      (c.subroutines.flatMap SubroutineDec.tokens ++ [.symbol .rightBrace]) =
      before.flatMap SubroutineDec.tokens ++ (d.opening ++ (body ++ .keyword .let_ :: ls)) := by
    simpa [ClassDec.tokens, enclosed] using htokens
  have hvars : c.vars = [] := ClassDec.vars_eq_nil hmembers
  rw [hvars, List.flatMap_nil, List.nil_append] at hmembers
  obtain ⟨more, hsub, hmore⟩ := flatMap_append_split SubroutineDec.tokens
    (fun r => r = [.symbol .rightBrace]) SubroutineDec.tokens_append_inj
    (by simp [SubroutineDec.tokens]) before c.subroutines rfl hmembers.symm
  cases more with
  | nil => simp [SubroutineDec.opening] at hmore
  | cons d' after =>
    have hd' : d' ∈ c.subroutines := by simp [hsub]
    obtain ⟨hparameters', hlocals', hlet⟩ := SubroutineDec.let_mem_of_opening hparameters hlocals
      hbody (by rw [hmore, List.flatMap_cons, List.append_assoc])
    obtain ⟨target, hdeclares, htarget⟩ :=
      Statement.exists_target_block _ (hadmitted.1 d' hd').1 hlet
    obtain rfl := Environment.eq_this_of_declares hvars hparameters' hlocals' hdeclares
    -- but the name that is assigned to is no keyword
    have hin : .identifier "this" ∈ c.subroutines.flatMap SubroutineDec.tokens := by
      refine List.mem_flatMap.mpr ⟨d', hd', ?_⟩
      rw [SubroutineDec.tokens_eq_opening]
      exact List.mem_append_right _ (List.mem_append_left _ htarget)
    have hkeyword : Keyword.ofText? "this" = none := by
      refine (hwellFormed (.identifier "this") ?_).1
      simp only [ClassDec.tokens, enclosed, List.mem_cons, List.mem_append]
      tauto
    exact absurd hkeyword (by decide)

/-! ## Runs -/

theorem Problem.Unexpected.not_lexical {e : Problem} (he : e.Unexpected) :
    e.fault.category ≠ .lexical := by
  obtain ⟨what, found, hfault⟩ := he
  simp [hfault, Fault.category]

theorem TokenStream.Meets.not_unexpected {source : String} {a : TokenStream} {e : Problem}
    (ha : ofSource source = .ok a) (h : a.Meets e) : ¬ e.Unexpected := by
  obtain ⟨ks, b, hreads, hadvance⟩ := h
  exact fun he => he.not_lexical (hreads.lexical ha hadvance)

section Runs

variable {options : Options} {source : String} {e : Problem} {a : TokenStream} {N : Nat}

/-- A text that compiles does so with every bound large enough. -/
theorem compilationUnit_of_run (h : (run options source).problem = none)
    (ha : TokenStream.ofSource source = .ok a) (hN : passBound a ≤ N) :
    ∃ s, (Pass.compilationUnit options N : Pass Unit) ⟨a, #[]⟩ = .ok () s := by
  rw [Pass.compilationUnit_eq_of_passBound options hN]
  cases hs : (Pass.compilationUnit options (passBound a) : Pass Unit) ⟨a, #[]⟩ with
  | error problem s =>
    rw [run_of_pass_error ha hs] at h
    cases h
  | ok u s => exact ⟨s, rfl⟩

/-- Where a run stops at an unexpected token, the pass over its stream does. The tokens consumed are
those that the pass has recorded. -/
theorem exists_of_unexpected (h : (run options source).problem = some e) (he : e.Unexpected) :
    ∃ (a : TokenStream) (s : Pass.State), TokenStream.ofSource source = .ok a ∧
      Pass.compilationUnit options (passBound a) ⟨a, #[]⟩ = .error e s ∧
      (run options source).tokens.map Token.kind = s.consumed := by
  cases ha : TokenStream.ofSource source with
  | error problem =>
    rw [run_of_error ha] at h
    cases h
    exact absurd (TokenStream.lexical_of_ofSource ha) he.not_lexical
  | ok a =>
    cases hs : (Pass.compilationUnit options (passBound a) : Pass Unit) ⟨a, #[]⟩ with
    | ok u s =>
      rw [run_of_pass_ok ha hs] at h
      cases h
    | error problem s =>
      rw [run_of_pass_error ha hs] at h ⊢
      cases h
      exact ⟨a, s, rfl, hs, rfl⟩

/-- A pass that stops at an unexpected token has read the tokens it has recorded and has the token
found ahead. On every stream with these tokens it stops too. -/
theorem stops_of_compilationUnit {s : Pass.State} (ha : TokenStream.ofSource source = .ok a)
    (hs : Pass.compilationUnit options (passBound a) ⟨a, #[]⟩ = .error e s) (he : e.Unexpected)
    (hN : passBound a ≤ N) :
    a.Reads s.consumed s.tokens ∧ e.Names s.tokens ∧
      ∀ {a' b' : TokenStream}, a'.Reads s.consumed b' →
        b'.current.kind = s.tokens.current.kind →
        ∃ e' s', (Pass.compilationUnit options N : Pass Unit) ⟨a', #[]⟩ = .error e' s' := by
  rw [← Pass.compilationUnit_eq_of_passBound options hN] at hs
  obtain hmeets | ⟨ks, out, htook, hnames, hechoes⟩ := Pass.echoes_of_error hs
  · exact absurd he (hmeets.not_unexpected ha)
  · obtain rfl : s.consumed = ks := by simpa [Pass.State.consumed] using htook.consumed
    refine ⟨htook.reads, hnames, fun {a' b'} hreads hahead => ?_⟩
    obtain ⟨e', s', hs', -⟩ := @hechoes ⟨a', #[]⟩ _ _ ⟨hreads, rfl, by rw [hahead]⟩
    exact ⟨e', s', hs'⟩

/-- **Causality.** Where a run stops at an unexpected token, a text that has the tokens consumed and
then the token found does not compile. -/
theorem not_compiles_of_found {line : Nat} {what : String} {found : TokenKind}
    (h : (run options source).problem = some ⟨line, .expected what found⟩)
    {source' : String} {a' b' : TokenStream} (ha' : TokenStream.ofSource source' = .ok a')
    (hreads : a'.Reads ((run options source).tokens.map Token.kind) b')
    (hfound : b'.current.kind = found) : (run options source').problem ≠ none := by
  have he : Problem.Unexpected ⟨line, .expected what found⟩ := ⟨what, found, rfl⟩
  obtain ⟨a, s, ha, hs, htokens⟩ := exists_of_unexpected h he
  -- a common bound, with which both streams give what they give with their own
  obtain ⟨-, hnames, hstops⟩ := stops_of_compilationUnit ha hs he (le_max_left _ (passBound a'))
  have hahead : b'.current.kind = s.tokens.current.kind := by rw [hfound, hnames what found rfl]
  obtain ⟨e', s', hs'⟩ := hstops (htokens ▸ hreads) hahead
  intro hnone
  obtain ⟨s'', hs''⟩ := compilationUnit_of_run hnone ha' (le_max_right (passBound a) _)
  rw [hs''] at hs'
  cases hs'

/-- **Completion.** The tokens that a run has consumed when it stops at an unexpected token are the
beginning of those of a class that meets the conditions, or end with a bare `let`. -/
theorem exists_completion (h : (run options source).problem = some e) (he : e.Unexpected)
    (hlength : (run options source).tokens.length < maxArguments) :
    BareLet ((run options source).tokens.map Token.kind) ∨
      ∃ (c : ClassDec) (ls : List TokenKind), c.Admitted options ∧
        c.tokens = (run options source).tokens.map Token.kind ++ ls ∧
        ∀ k ∈ c.tokens, k.WellFormed := by
  obtain ⟨a, s, ha, hs, htokens⟩ := exists_of_unexpected h he
  obtain ⟨hreads, -⟩ := stops_of_compilationUnit ha hs he le_rfl
  have hconsumed : s.consumed.length < maxArguments := by rwa [← htokens, List.length_map]
  rw [htokens]
  obtain hmeets | ⟨ks, hks, hopen⟩ := Pass.compilationUnit_error he hs
  · exact absurd he (hmeets.not_unexpected ha)
  · obtain rfl := hks.unique hreads
    obtain ⟨ls, hls, c, hc | hbare, hctokens⟩ := hopen hconsumed
    · refine .inr ⟨c, ls, hc, hctokens, fun k hk => ?_⟩
      rw [hctokens] at hk
      obtain hk | hk := List.mem_append.mp hk
      · exact hreads.wellFormed ha k hk
      · exact hls k hk
    · exact .inl (bareLet_of_bareAt hbare (hreads.wellFormed ha))

end Runs

theorem problem_of_compile {options : Options} {unit source : String} {line : Nat} {fault : Fault}
    (h : compile options unit source = .error (.source ⟨unit, line, fault⟩)) :
    (run options source).problem = some ⟨line, fault⟩ := by
  obtain ⟨e, hproblem, herror⟩ := compile_error_iff.mp h
  cases herror
  exact hproblem

theorem BareLet.getLast? {ks : List TokenKind} (h : BareLet ks) :
    ks.getLast? = some (.keyword .let_) := by
  obtain ⟨name, before, d, body, rest, -, -, -, rfl⟩ := h
  rw [← List.append_assoc, ← List.append_assoc, ← List.cons_append, ← List.cons_append,
    ← List.cons_append]
  exact List.getLast?_concat

/-- No text that goes on from a bare `let` compiles. -/
theorem BareLet.not_compiles {options : Options} {unit source text : String}
    {ks ls : List TokenKind} (h : BareLet ks) (hscans : Scans source (ks ++ ls)) :
    compile options unit source ≠ .ok text := by
  intro htext
  obtain ⟨c, hc, hscans'⟩ := exists_of_compile htext
  exact h.not_admitted (hscans'.unique hscans) (fun k hk => hscans'.wellFormed hk) hc

/-- **Complaints come as early as they can.** Compilation stops at an unexpected token after the
tokens `ks`. Some text whose tokens begin with `ks` compiles, unless they end with a bare `let`. No
text compiles whose tokens begin with `ks` and the token found; where this is the end of the input,
no text compiles whose tokens are `ks`. The bound is on the tokens consumed, not on the whole
text. -/
theorem expected_is_earliest (options : Options) (unit source : String) (line : Nat) (what : String)
    (found : TokenKind) (ks : List TokenKind)
    (h : compile options unit source = .error (.source ⟨unit, line, .expected what found⟩))
    (hks : (run options source).tokens.map Token.kind = ks) (hlength : ks.length < maxArguments) :
    ((∃ source' ls text, Scans source' (ks ++ ls) ∧ compile options unit source' = .ok text) ↔
        ¬ BareLet ks) ∧
      (∀ source' ls text, Scans source' (ks ++ found :: ls) →
        compile options unit source' ≠ .ok text) ∧
      (found = .eof → ∀ source' text, Scans source' ks →
        compile options unit source' ≠ .ok text) := by
  have hproblem := problem_of_compile h
  subst hks
  refine ⟨⟨?_, ?_⟩, ?_, ?_⟩
  · rintro ⟨source', ls, text, hscans, htext⟩ hbare
    exact hbare.not_compiles hscans htext
  · intro hbare
    obtain hbare' | ⟨c, ls, hc, hctokens, hwellFormed⟩ :=
      exists_completion hproblem ⟨what, found, rfl⟩ (by simpa using hlength)
    · exact absurd hbare' hbare
    · have hscans := scans_spelled hwellFormed
      exact ⟨spelled c.tokens, ls, _, hctokens ▸ hscans, compile_of_scans unit hc hscans⟩
  · intro source' ls text hscans htext
    obtain ⟨a, b, ha, hreads, -⟩ := scans_iff.mp hscans
    obtain ⟨b', hreads', hfound⟩ := TokenStream.reads_append.mp hreads
    exact not_compiles_of_found hproblem ha hreads' (TokenStream.reads_cons.mp hfound).1
      (compile_ok_iff.mp htext).1
  · rintro rfl source' text hscans htext
    obtain ⟨a, b, ha, hreads, hend⟩ := scans_iff.mp hscans
    exact not_compiles_of_found hproblem ha hreads hend (compile_ok_iff.mp htext).1

/-- A call with a comma after its last argument. -/
def danglingText : String :=
  "class Main \x7b function void main() \x7b do f(1,\n); \x7d \x7d"

def danglingTokens : List TokenKind :=
  [.keyword .class_, .identifier "Main", .symbol .leftBrace, .keyword .function, .keyword .void,
    .identifier "main", .symbol .leftParen, .symbol .rightParen, .symbol .leftBrace,
    .keyword .do_, .identifier "f", .symbol .leftParen, .integer 1 "1", .symbol .comma]

theorem dangling_is_earliest :
    compile {} "Main" danglingText =
        .error (.source ⟨"Main", 2, .expected "term" (.symbol .rightParen)⟩) ∧
      (∃ source' ls text, Scans source' (danglingTokens ++ ls) ∧
        compile {} "Main" source' = .ok text) ∧
      ∀ source' ls text, Scans source' (danglingTokens ++ .symbol .rightParen :: ls) →
        compile {} "Main" source' ≠ .ok text := by
  have hcompile : compile {} "Main" danglingText =
      .error (.source ⟨"Main", 2, .expected "term" (.symbol .rightParen)⟩) := by decide +kernel
  obtain ⟨hcompletion, hfound, -⟩ := expected_is_earliest {} "Main" danglingText 2 "term"
    (.symbol .rightParen) danglingTokens hcompile (by decide +kernel) (by decide)
  exact ⟨hcompile, hcompletion.mpr fun h => absurd h.getLast? (by decide), hfound⟩

/-- A `let` where nothing is declared, and on the next line something that is no name. -/
def bareLetText : String := "class A \x7b function void f() \x7b\nlet\n; \x7d \x7d"

def bareLetTokens : List TokenKind :=
  [.keyword .class_, .identifier "A", .symbol .leftBrace, .keyword .function, .keyword .void,
    .identifier "f", .symbol .leftParen, .symbol .rightParen, .symbol .leftBrace, .keyword .let_]

/-- The complaint comes one token late: what was consumed before is not the beginning of a text that
compiles. -/
theorem bareLet_is_late :
    compile {} "Main" bareLetText =
        .error (.source ⟨"Main", 3, .expected "identifier" (.symbol .semicolon)⟩) ∧
      (run {} bareLetText).tokens.map Token.kind = bareLetTokens ∧
      (scan bareLetText).length < 65000 ∧
      ∀ source' ls text, Scans source' (bareLetTokens ++ ls) →
        compile {} "Main" source' ≠ .ok text := by
  refine ⟨by decide +kernel, by decide +kernel, by decide +kernel, ?_⟩
  intro source' ls text hscans
  have hbare : BareLet bareLetTokens :=
    ⟨"A", [], ⟨.function, none, "f", [], [], [.let_ "x" (.mk (.word .null) [])]⟩, [], _, rfl, rfl,
      rfl, rfl⟩
  exact hbare.not_compiles hscans

end Jack
