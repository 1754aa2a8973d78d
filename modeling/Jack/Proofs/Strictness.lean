import Jack.Proofs.Language
import Jack.Proofs.Pass.Survey

/-!
# Strict compilation

A strict compilation refuses a name that is declared twice in one scope. It differs from a lenient
one in nothing else: it gives the same result, unless the lenient compilation comes to a name that
it has declared before in the same scope. Then the strict one stops at the first such name, with its
line (`strict_refuses_first_redeclaration`).

1. The two runs end alike, or the strict one is cut short (`run_strict_cases`).
2. The names declared by a strict run are distinct, up to the one at which it is cut short
   (`distinct_sites_of_strict`, `exists_site_of_declaration`).
-/

namespace Jack

/-! ## The declarations of a run -/

/-- The tokens with which a run is done. The last one taken is not among them if the token after it
could not be scanned. -/
def Run.settled (r : Run) : List Token :=
  match r.problem with
  | none => r.tokens
  | some e => if e.fault.category = .lexical then r.tokens.dropLast else r.tokens

/-- The names that a run has come to declare. -/
def Run.sites (r : Run) : List Site := declarationSites r.settled

/-- The source text is at fault for a declaration. -/
def Refused {α : Type} (result : Except Error α) : Prop :=
  ∃ d, result = .error (.source d) ∧ d.fault.category = .declaration

/-! ## Lenient and strict runs -/

section Runs

variable (annotate : Bool) (source : String)

/-- A lenient run never objects to a declaration. -/
theorem category_of_lenient {e : Problem} (h : (run ⟨annotate, false⟩ source).problem = some e) :
    e.fault.category ≠ .declaration := by
  cases ha : TokenStream.ofSource source with
  | error e' =>
    rw [run_of_error ha] at h
    cases h
    rw [TokenStream.lexical_of_ofSource ha]
    simp
  | ok a =>
    have hgenuine := TokenStream.genuine_ofSource ha
    obtain ⟨r, b, es, hcourse, -⟩ := Pass.exists_unitCourse (δ := Array Event) ⟨annotate, false⟩
      ⟨annotate, false⟩ id (passBound a) hgenuine
    rw [run_of_plays ha hcourse.plays] at h
    cases r with
    | ok u => cases h
    | error e' =>
      cases h
      cases hcourse.account.covers with
      | walked _ hblame => exact fun hd => by cases (hblame e rfl).2 hd
      | stuck hahead =>
        rw [hgenuine.lexical e (by simp [hahead])]
        simp

/-- The strict run ends as the lenient one, or it stops at a name that is declared again, before the
lenient run is done. -/
theorem run_strict_cases :
    ((run ⟨annotate, true⟩ source).problem = (run ⟨annotate, false⟩ source).problem ∧
      (run ⟨annotate, true⟩ source).tokens = (run ⟨annotate, false⟩ source).tokens) ∨
    ∃ line name, (run ⟨annotate, true⟩ source).problem = some ⟨line, .redeclared name⟩ ∧
      (run ⟨annotate, true⟩ source).tokens <+: (run ⟨annotate, false⟩ source).settled := by
  cases ha : TokenStream.ofSource source with
  | error e =>
    rw [run_of_error ha, run_of_error ha]
    exact .inl ⟨rfl, rfl⟩
  | ok a =>
    obtain ⟨r, b, es, hcourse, -⟩ := Pass.exists_unitCourse (δ := Array Event) ⟨annotate, false⟩
      ⟨annotate, true⟩ (fun _ => rfl) (passBound a) (TokenStream.genuine_ofSource ha)
    rw [run_of_plays ha hcourse.plays]
    obtain ⟨es', hplays, htokens, -⟩ |
      ⟨-, line, name, m, es', ts, hplays, -, htokens, hcovers⟩ := hcourse.follows
    · rw [run_of_plays ha hplays]
      exact .inl ⟨rfl, htokens⟩
    · rw [run_of_plays ha hplays]
      refine .inr ⟨line, name, rfl, ?_⟩
      show Pass.tokensOf es' <+: Run.settled ⟨es.toArray, Pass.problem? r⟩
      have hsettled : Run.tokens ⟨es.toArray, Pass.problem? r⟩ = Pass.tokensOf es' ++ ts := htokens
      rw [Run.settled, hsettled]
      cases r with
      | ok u => exact List.prefix_append _ _
      | error e =>
        simp only [Pass.problem?]
        split
        · rename_i hlexical
          rw [List.dropLast_append_of_ne_nil (hcovers.ne_nil hlexical)]
          exact List.prefix_append _ _
        · exact List.prefix_append _ _

/-- The survey of a strict run, where the text has a first token. -/
theorem survey_of_strict {a : TokenStream} (ha : TokenStream.ofSource source = .ok a) :
    ((run ⟨annotate, true⟩ source).problem = none →
      Site.Distinct (declarationSites (run ⟨annotate, true⟩ source).tokens)) ∧
    ∀ e, (run ⟨annotate, true⟩ source).problem = some e →
      Survey.Halts {} e (run ⟨annotate, true⟩ source).tokens := by
  have hstart : Survey.Sound {} := ⟨List.nodup_nil, by simp⟩
  obtain ⟨r, b, ts, hdoes, hend⟩ :=
    @Pass.surveyed_compilationUnit ⟨annotate, true⟩ rfl (passBound a) a
      (TokenStream.genuine_ofSource ha) hstart
  obtain ⟨htokens, hproblem⟩ := run_of_does ha hdoes
  rw [htokens, hproblem]
  cases r with
  | ok u => exact ⟨fun _ => hend.1.distinct, by simp [Pass.problem?]⟩
  | error e => exact ⟨by simp [Pass.problem?], by rintro _ ⟨⟩; exact hend⟩

/-- Where a strict run objects to a declaration, it is the first one of a name that its scope has
already. -/
theorem exists_site_of_declaration {e : Problem}
    (h : (run ⟨annotate, true⟩ source).problem = some e) (he : e.fault.category = .declaration) :
    ∃ before site, declarationSites (run ⟨annotate, true⟩ source).tokens = before ++ [site] ∧
      Site.Distinct before ∧ site.key ∈ before.map Site.key ∧
      e = ⟨site.line, .redeclared site.name⟩ := by
  cases ha : TokenStream.ofSource source with
  | error e' =>
    rw [run_of_error ha] at h
    cases h
    rw [TokenStream.lexical_of_ofSource ha] at he
    cases he
  | ok a => exact ((survey_of_strict annotate source ha).2 e h).declaration he

/-- Where a strict run does not object to a declaration, the names it has declared are distinct. -/
theorem distinct_sites_of_strict
    (h : ∀ e, (run ⟨annotate, true⟩ source).problem = some e → e.fault.category ≠ .declaration) :
    Site.Distinct (run ⟨annotate, true⟩ source).sites := by
  cases ha : TokenStream.ofSource source with
  | error e =>
    have htokens : (run ⟨annotate, true⟩ source).settled = [] := by
      simp [Run.settled, Run.tokens, run_of_error ha]
    rw [Run.sites, htokens]
    exact List.nodup_nil
  | ok a =>
    obtain ⟨hok, hhalts⟩ := survey_of_strict annotate source ha
    unfold Run.sites Run.settled
    cases hproblem : (run ⟨annotate, true⟩ source).problem with
    | none => exact hok hproblem
    | some e =>
      have hhalts := hhalts e hproblem
      by_cases hlexical : e.fault.category = .lexical
      · obtain ⟨before, t, htokens, hdistinct⟩ := hhalts.lexical hlexical
        simp only [if_pos hlexical]
        rw [htokens, List.dropLast_concat]
        exact hdistinct
      · simp only [if_neg hlexical]
        exact hhalts.other hlexical (h e hproblem)

/-- **First redeclarations.** The strict run ends as the lenient one, whose declarations are then
distinct, or it objects to the first name that the lenient one declares again in the same scope. -/
theorem strict_cases :
    ((run ⟨annotate, true⟩ source).problem = (run ⟨annotate, false⟩ source).problem ∧
      Site.Distinct (run ⟨annotate, false⟩ source).sites) ∨
    ∃ before site after, (run ⟨annotate, false⟩ source).sites = before ++ site :: after ∧
      Site.Distinct before ∧ site.key ∈ before.map Site.key ∧
      (run ⟨annotate, true⟩ source).problem = some ⟨site.line, .redeclared site.name⟩ := by
  obtain ⟨hproblem, htokens⟩ | ⟨line, name, hproblem, more, hmore⟩ :=
    run_strict_cases annotate source
  · have hsites : (run ⟨annotate, true⟩ source).sites = (run ⟨annotate, false⟩ source).sites := by
      rw [Run.sites, Run.sites, Run.settled, Run.settled, hproblem, htokens]
    refine .inl ⟨hproblem, hsites ▸ distinct_sites_of_strict annotate source fun e he => ?_⟩
    exact category_of_lenient annotate source (hproblem ▸ he)
  · obtain ⟨before, site, hsites, hdistinct, hrepeated, he⟩ :=
      exists_site_of_declaration annotate source hproblem rfl
    have hbegin : before ++ [site] <+: (run ⟨annotate, false⟩ source).sites := by
      rw [← hsites, Run.sites, ← hmore, declarationSites, declarationSites, Survey.readAll_append]
      exact Survey.sites_prefix_readAll _ _
    obtain ⟨after, hafter⟩ := hbegin
    refine .inr ⟨before, site, after, ?_, hdistinct, hrepeated, he ▸ hproblem⟩
    rw [← hafter, List.append_assoc, List.singleton_append]

end Runs

/-! ## Lenient and strict compilations -/

section Compilations

variable {annotate : Bool} {source : String}

/-- Runs that end alike are compiled to the same result. -/
theorem compile_strict_of_problem (unit : String)
    (h : (run ⟨annotate, true⟩ source).problem = (run ⟨annotate, false⟩ source).problem) :
    compile ⟨annotate, true⟩ unit source = compile ⟨annotate, false⟩ unit source := by
  cases hproblem : (run ⟨annotate, false⟩ source).problem with
  | some e =>
    rw [hproblem] at h
    rw [compile_error_iff.mpr ⟨e, h, rfl⟩, compile_error_iff.mpr ⟨e, hproblem, rfl⟩]
  | none =>
    rw [hproblem] at h
    obtain ⟨c, hc, hscans⟩ := exists_of_run h
    -- the conditions of a lenient compilation are among those of a strict one
    have hc' : c.Admitted ⟨annotate, false⟩ :=
      ⟨fun d hd => ⟨(hc.1 d hd).1, fun h => by cases h⟩, fun h => by cases h⟩
    rw [compile_of_scans unit hc hscans, compile_of_scans unit hc' hscans]

theorem refused_iff {options : Options} (unit : String) :
    Refused (compile options unit source) ↔
      ∃ e, (run options source).problem = some e ∧ e.fault.category = .declaration := by
  constructor
  · rintro ⟨d, hd, hcategory⟩
    obtain ⟨e, he, heq⟩ := compile_error_iff.mp hd
    cases heq
    exact ⟨e, he, hcategory⟩
  · rintro ⟨e, he, hcategory⟩
    exact ⟨e.inUnit unit, compile_error_iff.mpr ⟨e, he, rfl⟩, hcategory⟩

/-- A name that repeats one before it breaks distinctness. -/
theorem Site.not_distinct {before after : List Site} {site : Site}
    (h : site.key ∈ before.map Site.key) : ¬ Site.Distinct (before ++ site :: after) := by
  intro hdistinct
  rw [Site.Distinct, List.map_append, List.map_cons, List.nodup_append] at hdistinct
  exact hdistinct.2.2 _ h _ (List.mem_cons_self ..) rfl

end Compilations

/-- **Strictness.** A strict compilation that does not refuse a declaration gives the result of the
lenient one. Where it refuses one, that is the first name which the lenient compilation declares
again in the same scope, reported with the line of that second declaration. It does so exactly where
the lenient compilation declares a name twice in one scope. -/
theorem strict_refuses_first_redeclaration (annotate : Bool) (unit source : String) :
    (¬ Refused (compile ⟨annotate, true⟩ unit source) →
      compile ⟨annotate, true⟩ unit source = compile ⟨annotate, false⟩ unit source) ∧
    (∀ d, compile ⟨annotate, true⟩ unit source = .error (.source d) →
      d.fault.category = .declaration →
      ∃ before site after, (run ⟨annotate, false⟩ source).sites = before ++ site :: after ∧
        Site.Distinct before ∧ site.key ∈ before.map Site.key ∧
        d = ⟨unit, site.line, .redeclared site.name⟩) ∧
    (Site.Distinct (run ⟨annotate, false⟩ source).sites →
      compile ⟨annotate, true⟩ unit source = compile ⟨annotate, false⟩ unit source) ∧
    (Refused (compile ⟨annotate, true⟩ unit source) ↔
      ¬ Site.Distinct (run ⟨annotate, false⟩ source).sites) := by
  obtain ⟨hproblem, hdistinct⟩ | ⟨before, site, after, hsites, hbefore, hrepeated, hproblem⟩ :=
    strict_cases annotate source
  · have hsame := compile_strict_of_problem unit hproblem
    have hnot : ¬ Refused (compile ⟨annotate, true⟩ unit source) := by
      rw [refused_iff]
      rintro ⟨e, he, hcategory⟩
      exact category_of_lenient annotate source (hproblem ▸ he) hcategory
    refine ⟨fun _ => hsame, fun d hd hcategory => ?_, fun _ => hsame, ?_⟩
    · exact absurd ⟨d, hd, hcategory⟩ hnot
    · exact ⟨fun h => absurd h hnot, fun h => absurd hdistinct h⟩
  · have hrefused : Refused (compile ⟨annotate, true⟩ unit source) :=
      (refused_iff unit).mpr ⟨_, hproblem, rfl⟩
    have hnot : ¬ Site.Distinct (run ⟨annotate, false⟩ source).sites := by
      rw [hsites]
      exact Site.not_distinct hrepeated
    refine ⟨fun h => absurd hrefused h, fun d hd _ => ?_, fun h => absurd h hnot, ?_⟩
    · obtain ⟨e, he, heq⟩ := compile_error_iff.mp hd
      rw [hproblem] at he
      cases he
      cases heq
      exact ⟨before, site, after, hsites, hbefore, hrepeated, rfl⟩
    · exact ⟨fun _ => hnot, fun _ => hrefused⟩

/-- A class in which a parameter is declared again as a local. The name of its field is also that of
a local, which is no redeclaration. -/
def doubledText : String :=
  "class A \x7b\n  field int x;\n  function void f(int y) \x7b\n    var int x,\n      y;\n" ++
  "    return;\n  \x7d\n\x7d\n"

theorem doubled_is_refused :
    compile ⟨false, true⟩ "A" doubledText = .error (.source ⟨"A", 5, .redeclared "y"⟩) ∧
    ∃ before site after, (run ⟨false, false⟩ doubledText).sites = before ++ site :: after ∧
      Site.Distinct before ∧ site.key ∈ before.map Site.key ∧
      (⟨"A", 5, .redeclared "y"⟩ : Diagnostic) = ⟨"A", site.line, .redeclared site.name⟩ := by
  have hrefused : compile ⟨false, true⟩ "A" doubledText =
      .error (.source ⟨"A", 5, .redeclared "y"⟩) := by decide +kernel
  exact ⟨hrefused, (strict_refuses_first_redeclaration false "A" doubledText).2.1 _ hrefused rfl⟩

end Jack
