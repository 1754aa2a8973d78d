import Jack.Proofs.Output.Block
import Jack.Proofs.Variable.Slot

/-!
# Operands stay inside what is declared

An instruction reaches a variable by the segment of its kind and its slot. The slots of a kind are
counted up while the declarations are read, and their number is fixed before the first statement.

1. As long as there are slots enough, the slot of a variable is below the number of declarations of
   its kind (`Declaration.index_lt_countP`), whichever declaration of its name counts.
2. Parameters and locals are declared in the subroutine only, statics and fields in the class only,
   so a name of either scope has a slot below `SubroutineDec.capacity`.
3. `SubroutineDec.Confines` says what the operands of an instruction may be. It holds of all the
   instructions that statements may hold, hence of every block (`operands_are_declared`).
-/

namespace Jack

/-! ## Operands -/

/-- The operands that may follow a segment in a subroutine with the given number of locals. -/
def SubroutineDec.Admits (c : ClassDec) (d : SubroutineDec) (locals : Nat) : Segment → Nat → Prop
  | .constant, _ => True
  | .local_, i => i < locals
  | .argument, i => i < d.arity
  | .this_, i => i < (c.namesOf .field).length
  | .static, i => i < (c.namesOf .static).length
  | .pointer, i => i = 0 ∨ i = 1
  | .that, i | .temp, i => i = 0

/-- An instruction that reaches nothing beyond what is declared, and does not write a constant. -/
def SubroutineDec.Confines (c : ClassDec) (d : SubroutineDec) (locals : Nat) : Instruction → Prop
  | .push segment i => d.Admits c locals segment i
  | .pop segment i => segment ≠ .constant ∧ d.Admits c locals segment i
  | _ => True

namespace SubroutineDec

variable {c : ClassDec} {d : SubroutineDec}

theorem admits_segment (kind : VariableKind) (i : Nat) :
    d.Admits c d.localVariables.length kind.segment i ↔ i < d.capacity c kind := by
  cases kind <;> exact Iff.rfl

/-- The slot of a variable is one of its segment. -/
theorem admits_of_find? (hfew : d.HasSlots c) {name : String} {v : Variable}
    (h : (d.environment c).find? name = some v) :
    d.Admits c d.localVariables.length v.kind.segment v.index := by
  rw [admits_segment]
  obtain h | ⟨-, h⟩ := Option.or_eq_some_iff.mp h
  · exact Nat.lt_of_lt_of_le (Declaration.index_lt_countP hfew.fit_scope h)
      (d.countP_scope_le c v.kind)
  · exact Nat.lt_of_lt_of_le (Declaration.index_lt_countP hfew.fit_class h)
      (d.countP_class_le c v.kind)

/-- The instructions of statements stay inside what is declared. -/
theorem confines_of_emits (hfew : d.HasSlots c) {i : Instruction}
    (h : (d.environment c).Emits i) :
    d.Confines c d.localVariables.length i := by
  cases h with
  | compute h =>
    cases h with
    | read h => exact admits_of_find? hfew h
    | _ => simp [Confines, Admits]
  | @write name v h =>
    exact ⟨by cases v.kind <;> simp [VariableKind.segment], admits_of_find? hfew h⟩
  | _ => simp [Confines, Admits]

theorem confines_entry (c : ClassDec) (d : SubroutineDec) :
    ∀ i ∈ d.entry c, d.Confines c d.localVariables.length i := by
  unfold entry
  cases h : d.kind <;> simp [Confines, Admits, arity, h]

end SubroutineDec

/-- The body of a block that stays inside what is declared, given the number in its header. -/
structure Confined (c : ClassDec) (d : SubroutineDec) (locals : Nat) (body : List Instruction) :
    Prop where
  operands : ∀ i ∈ body, d.Confines c locals i
  /-- A constructor asks for one cell for each field name. -/
  allocates : d.kind = .constructor → ∃ rest, body =
    .push .constant (c.namesOf .field).length :: .call "Memory.alloc" 1 :: rest

theorem SubroutineDec.confined {c : ClassDec} {d : SubroutineDec} (hd : d ∈ c.subroutines)
    (hvalid : d.Valid c) (htokens : ∀ k ∈ c.tokens, k.WellFormed) (hfew : d.HasSlots c) :
    Confined c d (wrap16 d.localVariables.length) (d.entry c ++ d.bodyCode c) where
  operands := by
    have hlocals : d.localVariables.length ≤ 65535 := hfew .local_
    rw [wrap16_of_le hlocals, List.forall_mem_append]
    exact ⟨d.confines_entry c, fun i hi =>
      confines_of_emits hfew (SubroutineDec.emits_bodyCode hd hvalid htokens i hi)⟩
  allocates := by
    intro hkind
    refine ⟨.pop .pointer 0 :: d.bodyCode c, ?_⟩
    have hfields : (c.namesOf .field).length ≤ 65535 := hfew .field
    rw [entry, hkind]
    simp only [c.countP_fields, wrap16_of_le hfields]
    rfl

/-- **Operands.** The blocks of the output are those of the subroutines, in order. As long as a
subroutine has at most 65535 variables of each kind, its own and those of the class, the following
holds of its block. Below the header `function C.f n` every `local` is below `n`, every `argument`
below the number of parameters, with one more for a method, every `this` and every `static` below
the number of fields or statics that the class names; pointers are 0 or 1, the other operands are 0,
and no constant is written. A constructor allocates as many cells as the class names fields. -/
theorem operands_are_declared {options : Options} {unit source text : String}
    (h : compile options unit source = .ok text) :
    ∃ c : ClassDec, Scans source c.tokens ∧ (∀ c' : ClassDec, Scans source c'.tokens → c' = c) ∧
      text = Line.listing (run options source).lines ∧
      List.Forall₂ (fun d block => ∃ n body,
          block = .function (c.name ++ "." ++ d.name) n :: body ∧
            ((∀ kind, d.capacity c kind ≤ 65535) → Confined c d n body))
        c.subroutines (functionBlocks (run options source).code) := by
  obtain ⟨c, hscans, hunique, hc, htext, -, hblocks⟩ := exists_class h
  refine ⟨c, hscans, hunique, htext, ?_⟩
  rw [hblocks, List.forall₂_map_right_iff, List.forall₂_same]
  intro d hd
  exact ⟨_, _, rfl, SubroutineDec.confined hd (hc.1 d hd).1 fun _ => hscans.wellFormed⟩

/-- The operands of a class that uses every sort of variable. -/
theorem finder_operands_are_declared :
    compile {} "Finder" finderText = .ok (Line.listing (finder.lines false)) ∧
      (finder.namesOf .field).length = 1 ∧
      List.Forall₂ (fun d block => ∃ n body,
          block = .function (finder.name ++ "." ++ d.name) n :: body ∧ Confined finder d n body)
        finder.subroutines (functionBlocks (run {} finderText).code) := by
  obtain ⟨c, -, hunique, -, hblocks⟩ := operands_are_declared compile_finder
  obtain rfl := hunique finder scans_finder
  have hfew : ∀ d ∈ finder.subroutines, ∀ kind, d.capacity finder kind ≤ 65535 := by
    intro d hd kind
    cases kind <;> revert d hd <;> decide
  refine ⟨compile_finder, rfl, List.forall₂_iff_get.mpr ⟨hblocks.length_eq, fun i hi hi' => ?_⟩⟩
  obtain ⟨n, body, hblock, hconfined⟩ := hblocks.get hi hi'
  exact ⟨n, body, hblock, hconfined (hfew _ (List.getElem_mem hi))⟩

end Jack
