import Jack.Proofs.Output.Block

/-!
# Subroutines on their own

A subroutine is compiled as if it were the only one of its class. What it is compiled to depends on
the name and the variables of the class, and on itself.

1. `ClassDec.only` is the class with one subroutine. The conditions on a subroutine and its lines
   are the same there (`admitted_only_iff`, `lines_only`).
2. A text of a class is compiled exactly if the class meets the conditions (`compile_iff_admitted`).
3. So a class is compiled exactly if it is with each of its subroutines alone, to these texts one
   after the other, and a change of the order changes the order of the texts only
   (`compile_iff_compile_only`).
-/

namespace Jack

/-- The class with the given subroutine only. -/
def ClassDec.only (c : ClassDec) (d : SubroutineDec) : ClassDec := { c with subroutines := [d] }

/-- A class with subroutines meets the conditions exactly if it does with each of them alone. -/
theorem ClassDec.admitted_only_iff {options : Options} {c : ClassDec} (hne : c.subroutines ≠ []) :
    c.Admitted options ↔ ∀ d ∈ c.subroutines, (c.only d).Admitted options := by
  constructor
  · rintro ⟨hall, hclass⟩ d hd
    refine ⟨?_, hclass⟩
    intro d' hd'
    obtain rfl := List.mem_singleton.mp hd'
    exact hall d' hd
  · intro h
    obtain ⟨d, hd⟩ := List.exists_mem_of_ne_nil _ hne
    exact ⟨fun d' hd' => (h d' hd').1 d' (List.mem_singleton_self d'), (h d hd).2⟩

theorem ClassDec.lines_only (c : ClassDec) (d : SubroutineDec) :
    (c.only d).lines false = d.lines false c := by
  unfold lines only
  rw [List.flatMap_singleton]
  rfl

theorem listing_flatMap {α : Type} (lines : α → List Line) (xs : List α) :
    Line.listing (xs.flatMap lines) = String.join (xs.map fun x => Line.listing (lines x)) := by
  induction xs with
  | nil => rfl
  | cons x xs ih =>
    rw [List.flatMap_cons, List.map_cons, String.join_cons, ← ih, Line.listing, List.map_append,
      String.join_append]
    rfl

section Compile

variable {options : Options} {unit source text : String} {c : ClassDec}

/-- A text of a class is compiled exactly if the class meets the conditions, and then to the lines
of the class. -/
theorem compile_iff_admitted (h : Scans source c.tokens) :
    compile options unit source = .ok text ↔
      c.Admitted options ∧ text = Line.listing (c.lines options.annotate) := by
  constructor
  · intro hcompile
    obtain ⟨c', hc', hscans⟩ := exists_of_compile hcompile
    obtain rfl := ClassDec.tokens_injective (h.unique hscans)
    rw [compile_of_scans unit hc' hscans] at hcompile
    exact ⟨hc', (Except.ok.inj hcompile).symm⟩
  · rintro ⟨hc, rfl⟩
    exact compile_of_scans unit hc h

theorem exists_compile_iff_admitted (h : Scans source c.tokens) :
    (∃ text, compile options unit source = .ok text) ↔ c.Admitted options := by
  simp only [compile_iff_admitted h, exists_and_left, exists_eq, and_true]

end Compile

/-- The text of a subroutine's lines. -/
def SubroutineDec.block (c : ClassDec) (d : SubroutineDec) : String :=
  Line.listing (d.lines false c)

theorem ClassDec.listing_lines (c : ClassDec) :
    Line.listing (c.lines false) = String.join (c.subroutines.map (SubroutineDec.block c)) :=
  listing_flatMap (SubroutineDec.lines false c) c.subroutines

/-- The conditions on a class do not depend on the order of its subroutines. -/
theorem ClassDec.admitted_perm_iff {options : Options} {c : ClassDec} {ds : List SubroutineDec}
    (h : ds.Perm c.subroutines) :
    ClassDec.Admitted options { c with subroutines := ds } ↔ c.Admitted options :=
  and_congr_left' (forall_congr' fun _ => imp_congr_left h.mem_iff)

/-- **Independence.** Given texts of a class with subroutines and, for each of them, of the class
with this one alone: the first text is compiled exactly if all the others are, and the result is
theirs in a row. In another order the subroutines are compiled to the same blocks in that order. -/
theorem compile_iff_compile_only (options : Options) (hannotate : options.annotate = false)
    (c : ClassDec) (parts : List (SubroutineDec × String))
    (hsubroutines : c.subroutines = parts.map Prod.fst) (hne : parts ≠ []) (unit source : String)
    (hscans : Scans source c.tokens) (hparts : ∀ p ∈ parts, Scans p.2 (c.only p.1).tokens) :
    ((∃ text, compile options unit source = .ok text) ↔
      ∀ p ∈ parts, ∃ text, compile options unit p.2 = .ok text) ∧
    (∀ text, compile options unit source = .ok text →
      text = String.join (parts.map fun p => p.1.block c) ∧
      ∀ p ∈ parts, compile options unit p.2 = .ok (p.1.block c)) ∧
    ∀ (ds : List SubroutineDec) (source' : String), ds.Perm c.subroutines →
      Scans source' (ClassDec.tokens { c with subroutines := ds }) →
      (compile options unit source' = .ok (String.join (ds.map (SubroutineDec.block c))) ↔
        compile options unit source =
          .ok (String.join (c.subroutines.map (SubroutineDec.block c)))) := by
  have honly : c.Admitted options ↔ ∀ p ∈ parts, (c.only p.1).Admitted options := by
    rw [ClassDec.admitted_only_iff (by simpa [hsubroutines] using hne), hsubroutines,
      List.forall_mem_map]
  refine ⟨?_, ?_, ?_⟩
  · rw [exists_compile_iff_admitted hscans, honly]
    exact forall₂_congr fun p hp => (exists_compile_iff_admitted (hparts p hp)).symm
  · intro text htext
    obtain ⟨hc, rfl⟩ := (compile_iff_admitted hscans).mp htext
    rw [hannotate, ClassDec.listing_lines, hsubroutines, List.map_map]
    refine ⟨rfl, fun p hp => ?_⟩
    refine (compile_iff_admitted (hparts p hp)).mpr ⟨honly.mp hc p hp, ?_⟩
    rw [hannotate, ClassDec.lines_only]
    rfl
  · intro ds source' hperm hscans'
    rw [compile_iff_admitted hscans, compile_iff_admitted hscans', ClassDec.admitted_perm_iff hperm,
      hannotate, ClassDec.listing_lines, ClassDec.listing_lines]
    exact and_congr_right' ⟨fun _ => rfl, fun _ => rfl⟩

/-- The texts of a class with each of its subroutines alone. -/
def ClassDec.partTexts (c : ClassDec) : List (SubroutineDec × String) :=
  c.subroutines.map fun d => (d, spelled (c.only d).tokens)

theorem finder_compile_only :
    (∀ p ∈ finder.partTexts, Scans p.2 (finder.only p.1).tokens) ∧
      (∀ p ∈ finder.partTexts, compile {} "Finder" p.2 = .ok (p.1.block finder)) ∧
      compile {} "Finder" finderText =
        .ok (String.join (finder.partTexts.map fun p => p.1.block finder)) := by
  have hkinds : ∀ d ∈ finder.subroutines, ∀ k ∈ (finder.only d).tokens, k.WellFormed := by
    decide +kernel
  have hparts : ∀ p ∈ finder.partTexts, Scans p.2 (finder.only p.1).tokens := by
    intro p hp
    obtain ⟨d, hd, rfl⟩ := List.mem_map.mp hp
    exact scans_spelled (hkinds d hd)
  obtain ⟨-, hblocks, -⟩ := compile_iff_compile_only {} rfl finder finder.partTexts rfl (by decide)
    "Finder" finderText scans_finder hparts
  obtain ⟨htext, hall⟩ := hblocks _ compile_finder
  exact ⟨hparts, hall, htext ▸ compile_finder⟩

end Jack
