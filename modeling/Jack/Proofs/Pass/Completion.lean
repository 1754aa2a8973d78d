import Jack.Proofs.Pass.Unfinished

/-!
# Completing a unit

A pass over a unit that stops at an unexpected token has read the beginning of a class. The class
can be completed such that it meets the conditions, unless a `let` has been read last where nothing
can be assigned to (`compilationUnit_error`).

A name that is missing in a declaration is a new one, so names stay distinct where they have to.
-/

namespace Jack

/-- The tokens of a subroutine before its first statement. -/
def SubroutineDec.opening (d : SubroutineDec) : List TokenKind :=
  .keyword d.kind.keyword :: d.resultToken :: .identifier d.name ::
    (inParens (Parameter.listTokens d.parameters) ++ .symbol .leftBrace :: localTokens d.locals)

theorem SubroutineDec.tokens_eq_opening (d : SubroutineDec) :
    d.tokens = d.opening ++ (Statement.blockTokens d.body ++ [.symbol .rightBrace]) := by
  simp [tokens, opening, enclosed]

namespace Pass

variable {s s₁ s' : State} {e : Problem} {bound : Nat} {options : Options} {ds : List Declaration}
  {context : Context} {pre : List TokenKind}

/-! ## Variables -/

theorem typeName_error (h : typeName s = .error e s') : StoppedAt e s s' := by
  unfold typeName at h
  rw [current_bind] at h
  cases hk : s.tokens.current.kind with
  | keyword w =>
    simp only [hk] at h
    split at h
    · obtain h | ⟨_, _, -, h⟩ := bind_error.mp h
      · exact .inl (meets_of_next_error h)
      · cases h
    · exact unexpected_error h
  | identifier name =>
    simp only [hk] at h
    exact expectName_error h
  | _ =>
    simp only [hk] at h
    exact unexpected_error h

theorem declaredName_error {type : String} {kind : VariableKind} (he : e.Unexpected)
    (h : declaredName options type kind context s = .error e s') : StoppedAt e s s' := by
  unfold declaredName at h
  rw [line_bind] at h
  obtain h | ⟨name, s₁, -, h⟩ := bind_error.mp h
  · exact expectName_error h
  · obtain ⟨what, found, hfault⟩ := he
    unfold declare at h
    cases htable : context.table? kind with
    | none =>
      simp only [htable] at h
      cases h
      cases hfault
    | some table =>
      simp only [htable] at h
      split at h
      · cases h
        cases hfault
      · obtain h | ⟨_, _, -, h⟩ := bind_error.mp h <;> cases h

/-- There is always a name that may be declared next. -/
theorem exists_mayFollow (options : Options) (ds : List Declaration) :
    ∃ name, (TokenKind.identifier name).WellFormed ∧
      ∀ type kind, MayFollow options ds [⟨name, type, kind⟩] := by
  obtain ⟨name, hwellFormed, hnew⟩ := exists_fresh (ds.map Declaration.name)
  exact ⟨name, hwellFormed, fun _ _ _ hds => Declaration.distinct_concat.mpr ⟨hds, hnew⟩⟩

/-- Names with commas between them. -/
theorem declaredNames_error {type : String} {kind : VariableKind} (he : e.Unexpected)
    {bound : Nat} : ∀ {ds : List Declaration} {context : Context} {s : State},
      context.table? kind = some (tableOf ds) →
      declaredNames options type kind bound context s = .error e s' →
      Unfinished e s s' fun ks ls => ∃ first more,
        MayFollow options ds ((first :: more).map fun name => ⟨name, type, kind⟩) ∧
        .identifier first :: more.flatMap (fun name => [.symbol .comma, .identifier name]) =
          ks ++ ls := by
  induction bound with
  | zero =>
    intro ds context s _ h
    obtain ⟨name, hwellFormed, hfollows⟩ := exists_mayFollow options ds
    exact (unexpected_error h).at_start [.identifier name] (by simpa using hwellFormed)
      ⟨name, [], hfollows type kind, rfl⟩
  | succ bound ih =>
    intro ds context s hds h
    rw [declaredNames, entering_eq] at h
    obtain hname | ⟨context₁, s₁, hname, h⟩ := bind_error.mp h
    · obtain ⟨name, hwellFormed, hfollows⟩ := exists_mayFollow options ds
      exact (declaredName_error he hname).at_start [.identifier name] (by simpa using hwellFormed)
        ⟨name, [], hfollows type kind, rfl⟩
    obtain ⟨first, rfl, hfollows, hfirst⟩ := declaredName_ok hds hname
    obtain hcomma | ⟨found, s₂, hcomma, hthen⟩ := bind_error.mp h
    · exact .inl ((meets_of_accept_error hcomma).of_reads hfirst.reads)
    obtain ⟨rfl, hread⟩ | ⟨rfl, -, rfl⟩ := accept_ok hcomma (by simp)
    · simp only [if_true] at hthen
      refine (ih (Context.table?_setTable hds _) hthen).within (hfirst.trans hread).reads []
        (by simp) ?_
      rintro ks ls - ⟨second, more, hfollows', htokens⟩
      exact ⟨first, second :: more, hfollows.append hfollows', by simp [htokens]⟩
    · simp only [Bool.false_eq_true, if_false] at hthen
      cases hthen

theorem declaration_error {kind : VariableKind} (he : e.Unexpected)
    (hds : context.table? kind = some (tableOf ds))
    (h : declaration options kind bound context s = .error e s') :
    Unfinished e s s' (Completes (fun d : VariableDec => MayFollow options ds (d.declarations kind))
      VariableDec.tokens) := by
  unfold declaration at h
  obtain htype | ⟨text, s₁, htype, h⟩ := bind_error.mp h
  · obtain ⟨name, hwellFormed, hfollows⟩ := exists_mayFollow options ds
    exact (typeName_error htype).at_start [.keyword .int, .identifier name, .symbol .semicolon]
      (by simpa using hwellFormed) ⟨⟨.int, name, []⟩, hfollows _ _, rfl⟩
  obtain ⟨t, rfl, ht⟩ := typeName_ok htype
  obtain hnames | ⟨context₁, s₂, hnames, h⟩ := bind_error.mp h
  · refine (declaredNames_error he hds hnames).within ht.reads [.symbol .semicolon] (by decide) ?_
    rintro ks ls - ⟨first, more, hfollows, htokens⟩
    refine ⟨⟨t, first, more⟩, hfollows, ?_⟩
    rw [VariableDec.tokens, ← List.cons_append, htokens]
    simp
  obtain ⟨first, more, rfl, hfollows, hread⟩ := declaredNames_ok hds hnames
  obtain hend | ⟨_, s₃, -, h⟩ := bind_error.mp h
  · exact (punctuation_error hend).unfinished (ht.trans hread).reads [.symbol .semicolon]
      (by decide) ⟨⟨t, first, more⟩, hfollows, by simp [VariableDec.tokens]⟩
  · cases h

/-- The variables of a class. -/
theorem classVariables_error (he : e.Unexpected) {bound : Nat} :
    ∀ {ds : List Declaration} {context : Context} {s : State}, context.classTable = tableOf ds →
      classVariables options bound context s = .error e s' →
      Unfinished e s s' (Completes
        (fun vs : List ClassVariableDec =>
          MayFollow options ds (vs.flatMap fun d => d.vars.declarations d.storage.kind))
        fun vs => vs.flatMap ClassVariableDec.tokens) := by
  induction bound with
  | zero =>
    intro ds context s _ h
    cases h
  | succ bound ih =>
    intro ds context s hds h
    rw [classVariables, entering_eq, keyword?_bind] at h
    cases hkind : s.tokens.current.kind.keyword?.bind classVariable? with
    | none =>
      simp only [hkind] at h
      cases h
    | some kind =>
      simp only [hkind] at h
      obtain ⟨k, hk, hclass⟩ := Option.bind_eq_some_iff.mp hkind
      obtain ⟨storage, rfl, rfl⟩ := exists_of_classVariable? hclass
      obtain h | ⟨_, s₁, hnext, h⟩ := bind_error.mp h
      · exact .inl (meets_of_next_error h)
      have hread := (next_ok hnext (TokenKind.keyword?_eq_some.mp hk) (by simp)).2
      have htable : context.table? storage.kind = some (tableOf ds) := by
        rw [← hds]
        cases storage <;> rfl
      obtain hdec | ⟨context₁, s₂, hdec, h⟩ := bind_error.mp h
      · refine (declaration_error he htable hdec).within hread.reads [] (by simp) ?_
        rintro ks ls - ⟨d, hfollows, htokens⟩
        exact ⟨[⟨storage, d⟩], by simpa using hfollows, by simp [ClassVariableDec.tokens, htokens]⟩
      obtain ⟨d, rfl, hfollows, hd⟩ := declaration_ok htable hdec
      rw [storage.setTable_kind] at h
      refine (ih rfl h).within (hread.trans hd).reads [] (by simp) ?_
      rintro ks ls - ⟨vs, hfollows', htokens⟩
      exact ⟨⟨storage, d⟩ :: vs, hfollows.append hfollows',
        by simp [ClassVariableDec.tokens, htokens]⟩

/-- The locals of a subroutine. -/
theorem localVariables_error (he : e.Unexpected) {bound : Nat} :
    ∀ {ds : List Declaration} {context : Context} {s : State},
      context.table? .local_ = some (tableOf ds) →
      localVariables options bound context s = .error e s' →
      Unfinished e s s' (Completes
        (fun vs : List VariableDec =>
          MayFollow options ds (vs.flatMap (VariableDec.declarations .local_)))
        SubroutineDec.localTokens) := by
  induction bound with
  | zero =>
    intro ds context s _ h
    cases h
  | succ bound ih =>
    intro ds context s hds h
    rw [localVariables, entering_eq] at h
    obtain hvar | ⟨found, s₁, hvar, hthen⟩ := bind_error.mp h
    · exact .inl (meets_of_accept_error hvar)
    obtain ⟨rfl, hread⟩ | ⟨rfl, -, rfl⟩ := accept_ok hvar (by simp)
    · simp only [if_true] at hthen
      obtain hdec | ⟨context₁, s₂, hdec, h⟩ := bind_error.mp hthen
      · refine (declaration_error he hds hdec).within hread.reads [] (by simp) ?_
        rintro ks ls - ⟨d, hfollows, htokens⟩
        exact ⟨[d], by simpa using hfollows, by simp [SubroutineDec.localTokens, htokens]⟩
      obtain ⟨d, rfl, hfollows, hd⟩ := declaration_ok hds hdec
      refine (ih (Context.table?_setTable hds _) h).within (hread.trans hd).reads [] (by simp) ?_
      rintro ks ls - ⟨vs, hfollows', htokens⟩
      refine ⟨d :: vs, hfollows.append hfollows', ?_⟩
      unfold SubroutineDec.localTokens at htokens ⊢
      simp [htokens]
    · simp only [Bool.false_eq_true, if_false] at hthen
      cases hthen

/-- Parameters with commas between them. -/
theorem parameters_error (he : e.Unexpected) {bound : Nat} :
    ∀ {ds : List Declaration} {context : Context} {s : State},
      context.table? .argument = some (tableOf ds) →
      parameters options bound context s = .error e s' →
      Unfinished e s s' (Completes
        (fun ps : List Parameter => ps ≠ [] ∧
          MayFollow options ds (ps.map fun p => ⟨p.name, p.type.text, .argument⟩))
        Parameter.listTokens) := by
  induction bound with
  | zero =>
    intro ds context s _ h
    obtain ⟨name, hwellFormed, hfollows⟩ := exists_mayFollow options ds
    exact (unexpected_error h).at_start [.keyword .int, .identifier name]
      (by simpa using hwellFormed) ⟨[⟨.int, name⟩], ⟨by simp, hfollows _ _⟩, rfl⟩
  | succ bound ih =>
    intro ds context s hds h
    obtain ⟨fresh, hwellFormed, hfresh⟩ := exists_mayFollow options ds
    rw [parameters, entering_eq] at h
    obtain htype | ⟨text, s₁, htype, h⟩ := bind_error.mp h
    · exact (typeName_error htype).at_start [.keyword .int, .identifier fresh]
        (by simpa using hwellFormed) ⟨[⟨.int, fresh⟩], ⟨by simp, hfresh _ _⟩, rfl⟩
    obtain ⟨t, rfl, ht⟩ := typeName_ok htype
    obtain hname | ⟨context₁, s₂, hname, h⟩ := bind_error.mp h
    · exact (declaredName_error he hname).unfinished ht.reads [.identifier fresh]
        (by simpa using hwellFormed) ⟨[⟨t, fresh⟩], ⟨by simp, hfresh _ _⟩, rfl⟩
    obtain ⟨name, rfl, hfollows, hread⟩ := declaredName_ok hds hname
    have hfirst := ht.trans hread
    obtain hcomma | ⟨found, s₃, hcomma, hthen⟩ := bind_error.mp h
    · exact .inl ((meets_of_accept_error hcomma).of_reads hfirst.reads)
    obtain ⟨rfl, hsep⟩ | ⟨rfl, -, rfl⟩ := accept_ok hcomma (by simp)
    · simp only [if_true] at hthen
      refine (ih (Context.table?_setTable hds _) hthen).within (hfirst.trans hsep).reads []
        (by simp) ?_
      rintro ks ls - ⟨ps, ⟨hne, hfollows'⟩, htokens⟩
      obtain ⟨q, more, rfl⟩ := List.exists_cons_of_ne_nil hne
      refine ⟨⟨t, name⟩ :: q :: more, ⟨by simp, hfollows.append hfollows'⟩, ?_⟩
      simp only [Parameter.listTokens, Parameter.tokens, List.flatMap_cons] at htokens ⊢
      simp [← htokens]
    · simp only [Bool.false_eq_true, if_false] at hthen
      cases hthen

theorem parameterList_error (he : e.Unexpected)
    (hds : context.table? .argument = some (tableOf ds))
    (h : parameterList options bound context s = .error e s') :
    Unfinished e s s' (Completes
      (fun ps : List Parameter =>
        MayFollow options ds (ps.map fun p => ⟨p.name, p.type.text, .argument⟩))
      Parameter.listTokens) := by
  unfold parameterList at h
  rw [symbol?_bind] at h
  split at h
  · cases h
  · refine (parameters_error he hds h).imp ?_
    rintro ks ls ⟨ps, ⟨-, hfollows⟩, htokens⟩
    exact ⟨ps, hfollows, htokens⟩

/-! ## Subroutines -/

theorem not_enter_error {className name : String} {kind : SubroutineKind} :
    ¬ enter className name kind s = .error e s' := by
  intro h
  unfold enter at h
  by_cases hmethod : kind = .method
  · simp only [hmethod, if_true] at h
    obtain h | ⟨_, _, -, h⟩ := bind_error.mp h
    · cases h
    obtain h | ⟨_, _, -, h⟩ := bind_error.mp h <;> cases h
  · simp only [hmethod, if_false] at h
    obtain h | ⟨_, _, -, h⟩ := bind_error.mp h <;> cases h

theorem not_showTable_error {title : String} {table : Table} :
    ¬ showTable options title table s = .error e s' := by
  intro h
  unfold showTable at h
  split at h
  · cases (writeLines_eq _ s).symm.trans h
  · cases h

theorem body_error (c : ClassDec) (d : SubroutineDec) (he : e.Unexpected)
    (h : body options (d.context c) bound s = .error e s') :
    Unfinished e s s' (BlockOpen (d.environment c)) := by
  unfold body at h
  rw [scope_of_some (SubroutineDec.subroutine_context c d), pure_bind] at h
  obtain h | ⟨_, s₁, hfunction, h⟩ := bind_error.mp h
  · cases h
  obtain h | ⟨_, s₂, hlisting, h⟩ := bind_error.mp h
  · exact absurd h not_showTable_error
  obtain h | ⟨_, s₃, hentry, h⟩ := bind_error.mp h
  · exact absurd h not_writeAll_error
  have hpre := (write_ok hfunction).trans ((showTable_ok hlisting).trans (writeAll_ok hentry))
  obtain h | ⟨_, s₄, -, h⟩ := bind_error.mp h
  · rw [← environment_context]
    refine ((statementsOpen (d.context c) bound).statements he h).within hpre.reads [] (by simp) ?_
    rintro ks ls - hopen
    simpa using hopen
  · cases h

section Block

variable (c : ClassDec) (d : SubroutineDec)

/-- What is completed to the locals and the statements of a subroutine, of which the rest is
given. -/
def BlockOf (options : Options) (ks ls : List TokenKind) : Prop :=
  ∃ vs ts, options.Allows (SubroutineDec.scope c.name { d with locals := vs }) ∧
    SubroutineDec.localTokens vs ++ Statement.blockTokens ts = ks ++ ls ∧
    (Statement.BlockValid (SubroutineDec.environment c { d with locals := vs }) ts ∨
      ∃ body rest, ks = SubroutineDec.localTokens vs ++ body ∧
        Statement.blockTokens ts = body ++ rest ∧
        Stuck (SubroutineDec.environment c { d with locals := vs }) body)

/-- The context in which the locals of a subroutine are declared. -/
def argumentContext : Context :=
  (c.context.inside (Subroutine.enter c.name d.name d.kind)).setTable .argument
    (tableOf (d.receiver c.name ++ d.arguments))

/-- The pass over the locals and the statements of a subroutine. -/
abbrev blockPass (options : Options) (bound : Nat) : Pass Unit :=
  localVariables options bound (argumentContext c d) >>= fun context => body options context bound

/-- With its locals the context is that of the statements. -/
theorem setTable_argumentContext (vs : List VariableDec) :
    (argumentContext c d).setTable .local_ (tableOf (d.receiver c.name ++ d.arguments ++
      vs.flatMap (VariableDec.declarations .local_))) =
      SubroutineDec.context c { d with locals := vs } := by
  rw [List.append_assoc]
  rfl

variable (hd : options.Allows (d.receiver c.name ++ d.arguments))

include hd

/-- Locals that may follow the arguments make up the scope with them. -/
theorem allows_scope {vs : List VariableDec}
    (h : MayFollow options (d.receiver c.name ++ d.arguments)
      (vs.flatMap (VariableDec.declarations .local_))) :
    options.Allows (SubroutineDec.scope c.name { d with locals := vs }) := by
  intro hstrict
  have hdistinct := h hstrict (hd hstrict)
  rwa [List.append_assoc] at hdistinct

theorem blockPass_ok {u : Unit} (h : blockPass c d options bound s = .ok u s') :
    ∃ vs ts, options.Allows (SubroutineDec.scope c.name { d with locals := vs }) ∧
      Statement.BlockValid (SubroutineDec.environment c { d with locals := vs }) ts ∧
      s.tokens.Reads (SubroutineDec.localTokens vs ++ Statement.blockTokens ts) s'.tokens := by
  obtain ⟨context, s₁, hlocals, h⟩ := bind_ok.mp h
  obtain ⟨vs, rfl, hfollows, hvs⟩ := localVariables_ok rfl hlocals
  rw [setTable_argumentContext] at h
  obtain ⟨ts, hvalid, hts⟩ := body_ok c { d with locals := vs } h
  exact ⟨vs, ts, allows_scope c d hd hfollows, hvalid, hvs.reads.append hts.reads⟩

theorem blockPass_error (he : e.Unexpected) (h : blockPass c d options bound s = .error e s') :
    Unfinished e s s' (BlockOf c d options) := by
  obtain hlocals | ⟨context, s₁, hlocals, h⟩ := bind_error.mp h
  · refine (localVariables_error he rfl hlocals).imp ?_
    rintro ks ls ⟨vs, hfollows, htokens⟩
    exact ⟨vs, [], allows_scope c d hd hfollows, by simp [Statement.blockTokens, htokens],
      .inl trivial⟩
  obtain ⟨vs, rfl, hfollows, hvs⟩ := localVariables_ok rfl hlocals
  rw [setTable_argumentContext] at h
  refine (body_error c { d with locals := vs } he h).within hvs.reads [] (by simp) ?_
  rintro ks ls - ⟨ts, hvalid, htokens⟩
  refine ⟨vs, ts, allows_scope c d hd hfollows, by simp [htokens], ?_⟩
  exact hvalid.imp_right fun hstuck => ⟨ks, ls, rfl, htokens, hstuck⟩

end Block

/-- Parameters in parentheses. -/
theorem parenthesizedParameters_error (he : e.Unexpected)
    (hds : context.table? .argument = some (tableOf ds))
    (h : parenthesized (parameterList options bound context) s = .error e s') :
    Unfinished e s s' (Completes
      (fun ps : List Parameter =>
        MayFollow options ds (ps.map fun p => ⟨p.name, p.type.text, .argument⟩))
      fun ps => inParens (Parameter.listTokens ps)) := by
  refine between_error h ⟨inParens [], by decide, [], mayFollow_nil, rfl⟩
    (parameterList_error he hds) ?_ ?_
  · rintro ks ls ⟨ps, hfollows, htokens⟩
    exact ⟨ps, hfollows, by simp [enclosed, htokens]⟩
  · intro s₁ context' s₂ hok
    obtain ⟨ps, -, hfollows, hread⟩ := parameterList_ok hds hok
    exact ⟨_, hread.reads, ps, hfollows, by simp [enclosed]⟩

/-- The tokens of a subroutine up to a `let` where nothing can be assigned to. -/
def BareIn (c : ClassDec) (d : SubroutineDec) (ks : List TokenKind) : Prop :=
  ∃ body rest, ks = d.opening ++ body ∧ Statement.blockTokens d.body = body ++ rest ∧
    Stuck (d.environment c) body

/-- What is completed to a subroutine, from its second token on. -/
def SubroutineOpen (options : Options) (c : ClassDec) (kind : SubroutineKind)
    (ks ls : List TokenKind) : Prop :=
  ∃ d : SubroutineDec, d.tokens = .keyword kind.keyword :: (ks ++ ls) ∧
    (d.Admitted options c ∨ BareIn c d (.keyword kind.keyword :: ks))

/-- The locals and the statements of a subroutine in braces. -/
theorem bracedBlock_error (c : ClassDec) (d : SubroutineDec)
    (hd : options.Allows (d.receiver c.name ++ d.arguments)) (he : e.Unexpected)
    (h : braced (blockPass c d options bound) s = .error e s') :
    Unfinished e s s' fun ks ls => SubroutineOpen options c d.kind
      (d.resultToken :: .identifier d.name ::
        (inParens (Parameter.listTokens d.parameters) ++ ks)) ls := by
  refine between_error h ⟨inBraces [], by decide, ?_⟩ (blockPass_error c d hd he) ?_ ?_
  · have hscope := @allows_scope options c d hd [] mayFollow_nil
    refine ⟨{ d with locals := [], body := [] }, ?_, .inl ⟨trivial, hscope⟩⟩
    simp [SubroutineDec.tokens, SubroutineDec.resultToken, SubroutineDec.localTokens,
      Statement.blockTokens]
  · rintro ks ls ⟨vs, ts, hallows, htokens, hvalid⟩
    refine ⟨{ d with locals := vs, body := ts }, ?_, hvalid.imp (fun h => ⟨h, hallows⟩) ?_⟩
    · simp [SubroutineDec.tokens, SubroutineDec.resultToken, htokens, enclosed]
    · rintro ⟨body, rest, rfl, hbody, hstuck⟩
      exact ⟨body, rest, by simp [SubroutineDec.opening, SubroutineDec.resultToken], hbody, hstuck⟩
  · intro s₁ u s₂ hok
    obtain ⟨vs, ts, hallows, hvalid, hread⟩ := blockPass_ok c d hd hok
    refine ⟨_, hread, { d with locals := vs, body := ts }, ?_, .inl ⟨hvalid, hallows⟩⟩
    simp [SubroutineDec.tokens, SubroutineDec.resultToken, enclosed]

/-- A subroutine whose result type has been read. -/
theorem subroutineRest_error (c : ClassDec) {kind : SubroutineKind} (result : Option TypeName)
    (he : e.Unexpected)
    (hresult : s.tokens.Reads [(result.map TypeName.token).getD (.keyword .void)] s₁.tokens)
    (h : (expectName >>= fun name => enter c.name name kind >>= fun entered =>
      parenthesized (parameterList options bound (c.context.inside entered)) >>= fun context =>
      braced (localVariables options bound context >>= fun context =>
        body options context bound)) s₁ = .error e s') :
    Unfinished e s s' (SubroutineOpen options c kind) := by
  obtain hname | ⟨name, s₂, hname, h⟩ := bind_error.mp h
  · refine (expectName_error hname).unfinished hresult
      (.identifier "x" :: (inParens [] ++ inBraces [])) (by decide)
      ⟨⟨kind, result, "x", [], [], []⟩, rfl, .inl ⟨trivial, fun hstrict => ?_⟩⟩
    exact mayFollow_nil hstrict (distinct_receiver c.name ⟨kind, result, "x", [], [], []⟩)
  obtain h | ⟨entered, s₃, henter, h⟩ := bind_error.mp h
  · exact absurd h not_enter_error
  obtain ⟨rfl, hnotes⟩ := enter_ok henter
  have hreceiver := SubroutineDec.table?_inside c ⟨kind, result, name, [], [], []⟩
  have hhead := hresult.append ((expectName_ok hname).trans hnotes).reads
  have hdistinct := distinct_receiver c.name ⟨kind, result, name, [], [], []⟩
  obtain hparens | ⟨context, s₄, hparens, h⟩ := bind_error.mp h
  · refine (parenthesizedParameters_error he hreceiver hparens).within hhead (inBraces [])
      (by decide) ?_
    rintro ks ls - ⟨ps, hfollows, htokens⟩
    refine ⟨⟨kind, result, name, ps, [], []⟩, ?_, .inl ⟨trivial, fun hstrict => ?_⟩⟩
    · simp [SubroutineDec.tokens, SubroutineDec.resultToken, htokens, SubroutineDec.localTokens,
        Statement.blockTokens]
    · exact hfollows.append mayFollow_nil hstrict hdistinct
  obtain ⟨s₅, s₆, hopen, hlist, hclose⟩ := between_ok hparens
  obtain ⟨ps, rfl, hfollows, hps⟩ := parameterList_ok hreceiver hlist
  refine (bracedBlock_error c ⟨kind, result, name, ps, [], []⟩
    (fun hstrict => hfollows hstrict hdistinct) he h).within
    (hhead.append (hopen.enclosed hps hclose).reads) [] (by simp) ?_
  rintro ks ls - hd
  simpa [SubroutineDec.resultToken] using hd

theorem subroutine_error (c : ClassDec) {kind : SubroutineKind} (he : e.Unexpected)
    (h : subroutine options c.context bound kind s = .error e s') :
    Unfinished e s s' (SubroutineOpen options c kind) := by
  unfold subroutine at h
  obtain hvoid | ⟨found, s₁, hvoid, hthen⟩ := bind_error.mp h
  · exact .inl (meets_of_accept_error hvoid)
  obtain ⟨rfl, hread⟩ | ⟨rfl, -, rfl⟩ := accept_ok hvoid (by simp)
  · exact subroutineRest_error c none he hread.reads hthen
  · obtain htype | ⟨text, s₂, htype, h⟩ := bind_error.mp hthen
    · refine (typeName_error htype).at_start
        (.keyword .void :: .identifier "x" :: (inParens [] ++ inBraces [])) (by decide)
        ⟨⟨kind, none, "x", [], [], []⟩, rfl, .inl ⟨trivial, fun hstrict => ?_⟩⟩
      exact mayFollow_nil hstrict (distinct_receiver c.name ⟨kind, none, "x", [], [], []⟩)
    · obtain ⟨t, -, ht⟩ := typeName_ok htype
      exact subroutineRest_error c (some t) he ht.reads h

/-! ## Classes -/

/-- What is completed to the subroutines of a class. All of them are admitted, or the last one ends
with a `let` where nothing can be assigned to. -/
def SubroutinesOpen (options : Options) (c : ClassDec) (ks ls : List TokenKind) : Prop :=
  ∃ ds : List SubroutineDec, ds.flatMap SubroutineDec.tokens = ks ++ ls ∧
    ((∀ d ∈ ds, d.Admitted options c) ∨ ∃ before d ks', ds = before ++ [d] ∧
      ks = before.flatMap SubroutineDec.tokens ++ ks' ∧ BareIn c d ks')

theorem subroutines_error (c : ClassDec) (he : e.Unexpected) {bound : Nat} :
    ∀ {s : State}, subroutines options c.context bound s = .error e s' →
      Unfinished e s s' (SubroutinesOpen options c) := by
  induction bound with
  | zero =>
    intro s h
    cases h
  | succ bound ih =>
    intro s h
    rw [subroutines, entering_eq, keyword?_bind] at h
    cases hkind : s.tokens.current.kind.keyword?.bind subroutineKind? with
    | none =>
      simp only [hkind] at h
      cases h
    | some kind =>
      simp only [hkind] at h
      obtain ⟨k, hk, hsub⟩ := Option.bind_eq_some_iff.mp hkind
      obtain rfl := keyword_of_subroutineKind? hsub
      obtain h | ⟨_, s₁, hnext, h⟩ := bind_error.mp h
      · exact .inl (meets_of_next_error h)
      have hread := (next_ok hnext (TokenKind.keyword?_eq_some.mp hk) (by simp)).2
      obtain hsubroutine | ⟨_, s₂, hsubroutine, h⟩ := bind_error.mp h
      · refine (subroutine_error c he hsubroutine).within hread.reads [] (by simp) ?_
        rintro ks ls - ⟨d, htokens, hd⟩
        refine ⟨[d], by simp [htokens], hd.imp (by simp) fun hbare => ?_⟩
        exact ⟨[], d, _, rfl, rfl, hbare⟩
      obtain ⟨d, ks, htokens, hadmitted, hd⟩ := subroutine_ok c hsubroutine
      refine (ih h).within (hread.trans hd).reads [] (by simp) ?_
      rintro ks' ls - ⟨ds, hds, hall⟩
      refine ⟨d :: ds, by simp [htokens, hds], hall.imp ?_ ?_⟩
      · exact fun hall => List.forall_mem_cons.mpr ⟨hadmitted, hall⟩
      · rintro ⟨before, d', rest, rfl, rfl, hbare⟩
        exact ⟨d :: before, d', rest, rfl, by simp [htokens], hbare⟩

/-- The tokens of a class up to a `let` where nothing can be assigned to, in its last subroutine. -/
def BareAt (c : ClassDec) (ks : List TokenKind) : Prop :=
  ∃ before d ks', c.subroutines = before ++ [d] ∧ BareIn c d ks' ∧
    ks = .keyword .class_ :: .identifier c.name :: .symbol .leftBrace ::
      (c.vars.flatMap ClassVariableDec.tokens ++ (before.flatMap SubroutineDec.tokens ++ ks'))

/-- What is completed to a class. -/
def ClassOpen (options : Options) (ks ls : List TokenKind) : Prop :=
  Completes (fun c => c.Admitted options ∨ BareAt c ks) ClassDec.tokens ks ls

/-- The pass over what stands between the braces of a class. -/
abbrev membersPass (options : Options) (name : String) (bound : Nat) : Pass Unit := do
  let context ← classVariables options bound { className := name }
  showTable options ("class " ++ name) context.classTable
  subroutines options context bound

theorem membersPass_ok {name : String} {u : Unit}
    (h : membersPass options name bound s = .ok u s') :
    ∃ vs ds, ClassDec.Admitted options ⟨name, vs, ds⟩ ∧
      s.tokens.Reads (vs.flatMap ClassVariableDec.tokens ++ ds.flatMap SubroutineDec.tokens)
        s'.tokens := by
  obtain ⟨context, s₁, hvariables, h⟩ := bind_ok.mp h
  obtain ⟨vs, rfl, hfollows, hvs⟩ := classVariables_ok tableOf_nil.symm hvariables
  obtain ⟨_, s₂, hlisting, h⟩ := bind_ok.mp h
  obtain ⟨ds, hall, hds⟩ := subroutines_ok ⟨name, vs, []⟩ h
  exact ⟨vs, ds, ⟨hall, fun hstrict => hfollows hstrict List.nodup_nil⟩,
    (hvs.trans ((showTable_ok hlisting).trans hds)).reads⟩

theorem membersPass_error {name : String} (he : e.Unexpected)
    (h : membersPass options name bound s = .error e s') :
    Unfinished e s s' fun ks ls => ClassOpen options
      (.keyword .class_ :: .identifier name :: .symbol .leftBrace :: ks)
      (ls ++ [.symbol .rightBrace]) := by
  obtain hvariables | ⟨context, s₁, hvariables, h⟩ := bind_error.mp h
  · refine (classVariables_error he tableOf_nil.symm hvariables).imp ?_
    rintro ks ls ⟨vs, hfollows, htokens⟩
    refine ⟨⟨name, vs, []⟩, .inl ⟨by simp, fun hstrict => hfollows hstrict List.nodup_nil⟩, ?_⟩
    simp [ClassDec.tokens, enclosed, htokens]
  obtain ⟨vs, rfl, hfollows, hvs⟩ := classVariables_ok tableOf_nil.symm hvariables
  obtain h | ⟨_, s₂, hlisting, h⟩ := bind_error.mp h
  · exact absurd h not_showTable_error
  refine (subroutines_error ⟨name, vs, []⟩ he h).within (hvs.trans (showTable_ok hlisting)).reads
    [] (by simp) ?_
  rintro ks ls - ⟨ds, hds, hall⟩
  refine ⟨⟨name, vs, ds⟩, hall.imp (fun hall => ?_) ?_, ?_⟩
  · exact ⟨hall, fun hstrict => hfollows hstrict List.nodup_nil⟩
  · rintro ⟨before, d, ks', rfl, rfl, hbare⟩
    exact ⟨before, d, ks', rfl, hbare, by simp⟩
  · simp [ClassDec.tokens, enclosed, hds]

theorem classDeclaration_error (he : e.Unexpected)
    (h : classDeclaration options bound s = .error e s') :
    Unfinished e s s' (ClassOpen options) := by
  have hempty : ∀ name, ClassDec.Admitted options ⟨name, [], []⟩ := fun name =>
    ⟨by simp, fun _ => List.nodup_nil⟩
  unfold classDeclaration at h
  obtain hclass | ⟨_, s₁, hclass, h⟩ := bind_error.mp h
  · exact (keyword_error hclass).at_start
      (.keyword .class_ :: .identifier "x" :: inBraces []) (by decide)
      ⟨⟨"x", [], []⟩, .inl (hempty "x"), rfl⟩
  have hhead := keyword_ok hclass
  obtain hname | ⟨name, s₂, hname, h⟩ := bind_error.mp h
  · exact (expectName_error hname).unfinished hhead.reads (.identifier "x" :: inBraces [])
      (by decide) ⟨⟨"x", [], []⟩, .inl (hempty "x"), rfl⟩
  obtain h | ⟨_, s₃, hnote, h⟩ := bind_error.mp h
  · cases h
  have hhead := hhead.trans ((expectName_ok hname).trans (note_ok hnote))
  have hmembers : Unfinished e s₃ s' fun ks ls =>
      ClassOpen options (.keyword .class_ :: .identifier name :: ks) ls := by
    refine between_error h ⟨inBraces [], by decide, ⟨name, [], []⟩, .inl (hempty name), rfl⟩
      (membersPass_error he) id ?_
    intro s₁ u s₂ hok
    obtain ⟨vs, ds, hadmitted, hread⟩ := membersPass_ok hok
    exact ⟨_, hread, ⟨name, vs, ds⟩, .inl hadmitted, by simp [ClassDec.tokens, enclosed]⟩
  refine hmembers.within hhead.reads [] (by simp) ?_
  rintro ks ls - hopen
  simpa using hopen

/-- **Classes.** A pass over a unit that stops at an unexpected token has read the beginning of a
class that can be completed. -/
theorem compilationUnit_error (he : e.Unexpected)
    (h : compilationUnit options bound s = .error e s') :
    Unfinished e s s' (ClassOpen options) := by
  obtain hclass | ⟨_, s₁, hclass, h⟩ := bind_error.mp h
  · exact classDeclaration_error he hclass
  obtain ⟨c, hadmitted, hwent⟩ := classDeclaration_ok hclass
  have hstopped : StoppedAt e s₁ s' := by
    unfold finish at h
    rw [current_bind] at h
    split at h
    · cases h
    · exact unexpected_error h
  exact hstopped.unfinished hwent.reads [] (by simp) ⟨c, .inl hadmitted, by simp⟩

end Pass

end Jack
