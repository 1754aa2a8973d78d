import Jack.Proofs.Output.Operand

/-!
# Constants

The machine has no constants above `maxConstant`. Numbers and strings in a text are checked against
this limit while they are read, but the number of fields, which a constructor passes to the
allocator, is not.

1. A constant in the code of statements is within the limit (`Environment.Emits.constant_le`).
2. The only other constant in a block is the number of fields in 16 bits, in a constructor
   (`SubroutineDec.push_constant_mem_code`). So the limit holds of a whole output exactly when the
   class has no constructor or not too many fields (`constants_are_bounded_iff`).
3. A class `crowded` with fields has a text, whatever their number, and this text compiles. With
   more fields than the limit allows, its code holds a constant that the machine does not have.
-/

namespace Jack

/-! ## Constants in code -/

theorem VariableKind.segment_ne_constant (kind : VariableKind) : kind.segment ≠ .constant := by
  cases kind <;> simp [segment]

/-- Statements push no constant above the limit. -/
theorem Environment.Emits.constant_le {env : Environment} {n : Nat}
    (h : env.Emits (.push .constant n)) : n ≤ maxConstant := by
  generalize hi : Instruction.push .constant n = i at h
  cases h with
  | compute h =>
    cases h with
    | constant hn =>
      obtain ⟨-, rfl⟩ := Instruction.push.inj hi
      exact hn
    | @read name v _ =>
      obtain ⟨hsegment, -⟩ := Instruction.push.inj hi
      exact absurd hsegment.symm v.kind.segment_ne_constant
    | _ => cases hi
  | _ => cases hi

namespace SubroutineDec

variable {c : ClassDec} {d : SubroutineDec}

/-- Before its statements, only a constructor pushes a constant: the number of fields. -/
theorem push_constant_mem_entry {n : Nat} :
    .push .constant n ∈ d.entry c ↔
      d.kind = .constructor ∧ n = wrap16 (c.namesOf .field).length := by
  unfold entry
  rw [c.countP_fields]
  cases d.kind <;> simp

theorem push_constant_mem_code {n : Nat} (hd : d ∈ c.subroutines) (hvalid : d.Valid c)
    (htokens : ∀ k ∈ c.tokens, k.WellFormed) (h : .push .constant n ∈ d.code c) :
    n ≤ maxConstant ∨ d.kind = .constructor ∧ n = wrap16 (c.namesOf .field).length := by
  have hcases : .push .constant n ∈ d.entry c ∨ .push .constant n ∈ d.bodyCode c := by
    simpa [code] using h
  obtain hentry | hbody := hcases
  · exact .inr (push_constant_mem_entry.mp hentry)
  · exact .inl (SubroutineDec.emits_bodyCode hd hvalid htokens _ hbody).constant_le

/-- A constructor pushes the number of fields. -/
theorem push_fields_mem_code (h : d.kind = .constructor) :
    .push .constant (wrap16 (c.namesOf .field).length) ∈ d.code c := by
  have hentry : .push .constant (wrap16 (c.namesOf .field).length) ∈ d.entry c :=
    push_constant_mem_entry.mpr ⟨h, rfl⟩
  unfold code
  exact List.mem_cons_of_mem _ (List.mem_append_left _ hentry)

end SubroutineDec

/-- **Constants.** A constant in the output is within the limit or is the number of fields in 16
bits, which the constructors of the class push. All of them are within the limit exactly when the
class has no constructor or this number is not above the limit. For a class of at most 65535 fields
it is the number of fields itself. -/
theorem constants_are_bounded_iff {options : Options} {unit source text : String}
    (h : compile options unit source = .ok text) :
    ∃ c : ClassDec, Scans source c.tokens ∧ (∀ c' : ClassDec, Scans source c'.tokens → c' = c) ∧
      text = Line.listing (run options source).lines ∧
      (∀ n, .push .constant n ∈ (run options source).code → n ≤ maxConstant ∨
        n = wrap16 (c.namesOf .field).length ∧ ∃ d ∈ c.subroutines, d.kind = .constructor) ∧
      ((∀ n, .push .constant n ∈ (run options source).code → n ≤ maxConstant) ↔
        ((∃ d ∈ c.subroutines, d.kind = .constructor) →
          wrap16 (c.namesOf .field).length ≤ maxConstant)) ∧
      ((c.namesOf .field).length ≤ 65535 →
        ((∀ n, .push .constant n ∈ (run options source).code → n ≤ maxConstant) ↔
          ((∃ d ∈ c.subroutines, d.kind = .constructor) →
            (c.namesOf .field).length ≤ maxConstant))) := by
  obtain ⟨c, hscans, hunique, hc, htext, hcode, -⟩ := exists_class h
  have hall : ∀ n, .push .constant n ∈ c.code → n ≤ maxConstant ∨
      n = wrap16 (c.namesOf .field).length ∧ ∃ d ∈ c.subroutines, d.kind = .constructor := by
    intro n hn
    obtain ⟨d, hd, hn⟩ := List.mem_flatMap.mp hn
    obtain hle | ⟨hkind, hfields⟩ :=
      SubroutineDec.push_constant_mem_code hd (hc.1 d hd).1 (fun _ => hscans.wellFormed) hn
    · exact .inl hle
    · exact .inr ⟨hfields, d, hd, hkind⟩
  have hiff : (∀ n, .push .constant n ∈ c.code → n ≤ maxConstant) ↔
      ((∃ d ∈ c.subroutines, d.kind = .constructor) →
        wrap16 (c.namesOf .field).length ≤ maxConstant) := by
    constructor
    · rintro hbound ⟨d, hd, hkind⟩
      exact hbound _ (List.mem_flatMap.mpr ⟨d, hd, SubroutineDec.push_fields_mem_code hkind⟩)
    · intro hfields n hn
      obtain hle | ⟨rfl, hconstructor⟩ := hall n hn
      · exact hle
      · exact hfields hconstructor
  rw [hcode]
  refine ⟨c, hscans, hunique, htext, hall, hiff, fun hfew => ?_⟩
  rwa [wrap16_of_le hfew] at hiff

/-- With one field, all constants are within the limit. -/
theorem finder_constants_are_bounded :
    compile {} "Finder" finderText = .ok (Line.listing (finder.lines false)) ∧
      (∃ d ∈ finder.subroutines, d.kind = .constructor) ∧
      ∀ n, .push .constant n ∈ (run {} finderText).code → n ≤ maxConstant := by
  obtain ⟨c, -, hunique, -, -, -, hiff⟩ := constants_are_bounded_iff compile_finder
  obtain rfl := hunique finder scans_finder
  exact ⟨compile_finder, ⟨_, List.mem_cons_self .., rfl⟩,
    (hiff (by decide)).mpr fun _ => by decide⟩

/-! ## Many fields -/

/-- A class with a constructor and one more field than the given number. -/
def crowded (n : Nat) : ClassDec where
  name := "A"
  vars := [⟨.field, ⟨.int, "y", (List.range n).map fun i => "x" ++ toString i⟩⟩]
  subroutines := [
    { kind := .constructor
      result := some (.named "A")
      name := "new"
      parameters := []
      locals := []
      body := [.return_ (some (.mk (.word .this_) []))] }]

theorem length_namesOf_crowded (n : Nat) : ((crowded n).namesOf .field).length = n + 1 := by
  simp [ClassDec.namesOf, crowded, VariableDec.names]

/-- The tokens of a crowded class, up to its first field, for the other fields, and after them. -/
theorem tokens_crowded (n : Nat) : (crowded n).tokens =
    ([.keyword .class_, .identifier "A", .symbol .leftBrace, .keyword .field, .keyword .int,
      .identifier "y"] : List TokenKind) ++
    ((List.range n).flatMap fun i =>
      [TokenKind.symbol .comma, TokenKind.identifier ("x" ++ toString i)]) ++
    ([.symbol .semicolon, .keyword .constructor, .identifier "A", .identifier "new",
      .symbol .leftParen, .symbol .rightParen, .symbol .leftBrace, .keyword .return_,
      .keyword .this_, .symbol .semicolon, .symbol .rightBrace, .symbol .rightBrace] :
        List TokenKind) := by
  simp only [crowded, ClassDec.tokens, List.flatMap_singleton, ClassVariableDec.tokens,
    VariableDec.tokens, List.flatMap_map, enclosed, List.cons_append, List.append_assoc,
    List.nil_append]
  rfl

theorem wellFormed_crowded (n : Nat) : ∀ k ∈ (crowded n).tokens, k.WellFormed := by
  rw [tokens_crowded, List.forall_mem_append, List.forall_mem_append]
  refine ⟨⟨by decide, ?_⟩, by decide⟩
  intro k hk
  obtain ⟨i, -, hk⟩ := List.mem_flatMap.mp hk
  obtain rfl | rfl : k = .symbol .comma ∨ k = .identifier ("x" ++ toString i) := by
    simpa using hk
  · trivial
  · exact wellFormed_numbered i

theorem scans_crowded (n : Nat) : Scans (spelled (crowded n).tokens) (crowded n).tokens :=
  scans_spelled (wellFormed_crowded n)

theorem compile_crowded (n : Nat) : compile {} "A" (spelled (crowded n).tokens) =
    .ok (Line.listing ((crowded n).lines false)) := by
  have hvalid : (crowded n).Valid := by
    intro d hd
    obtain rfl := List.mem_singleton.mp hd
    exact ⟨⟨trivial, trivial⟩, trivial⟩
  have hc : (crowded n).Admitted {} :=
    (ClassDec.admitted_iff (scans_crowded n)).mpr ⟨hvalid, fun h => by cases h⟩
  exact compile_of_scans "A" hc (scans_crowded n)

/-- The text of a class with 32768 fields and a constructor compiles to code that holds a constant
above the limit. -/
theorem crowded_exceeds_maxConstant :
    compile {} "A" (spelled (crowded 32767).tokens) =
        .ok (Line.listing ((crowded 32767).lines false)) ∧
      ((crowded 32767).namesOf .field).length ≤ 65535 ∧
      .push .constant 32768 ∈ (run {} (spelled (crowded 32767).tokens)).code ∧
      ¬ 32768 ≤ maxConstant := by
  obtain ⟨c, -, hunique, -, -, hcode, -⟩ := exists_class (compile_crowded 32767)
  obtain rfl := hunique _ (scans_crowded 32767)
  have hlength := length_namesOf_crowded 32767
  refine ⟨compile_crowded 32767, by omega, ?_, by decide⟩
  have hmem := SubroutineDec.push_fields_mem_code (c := crowded 32767)
    (d := (crowded 32767).subroutines.head (by simp [crowded])) rfl
  rw [hlength, wrap16_of_le (by omega)] at hmem
  rw [hcode]
  exact List.mem_flatMap.mpr ⟨_, List.head_mem _, hmem⟩

end Jack
