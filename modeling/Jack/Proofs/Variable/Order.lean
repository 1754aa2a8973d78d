import Mathlib.Data.List.Sort
import Jack.Proofs.Variable.Slot

/-!
# The listing of a table

A table keeps its variables by name and lists them by kind and slot. The listing holds what the
table holds (`Table.mem_ordered`), and because the variables of a table have different names, each
of them once (`nodup_ordered`).

As long as there are slots enough for the declarations of each kind, the names play no part in it:

1. no two variables have the same slot, so the listing is sorted strictly (`pairwise_ordered`), and
   there is only one such list of the same variables;
2. other lists of the same variables are therefore the listing as soon as they are sorted: the
   listing under new names (`ordered_rename`), and, kind by kind, the survivors in the
   order in which they were declared (`ordered_filter_kind`).
-/

namespace Jack

/-! ## The order of a listing -/

namespace Variable

/-- By kind, in the order static, field, argument, local, and then by slot. -/
def Before (a b : Variable) : Prop :=
  [a.kind, b.kind].Sublist [.static, .field, .argument, .local_] ∨
    a.kind = b.kind ∧ a.index < b.index

theorem before_iff {a b : Variable} :
    a.Before b ↔ a.kind.rank < b.kind.rank ∨ a.kind = b.kind ∧ a.index < b.index := by
  have hkinds : ∀ k l : VariableKind,
      [k, l].Sublist [.static, .field, .argument, .local_] ↔ k.rank < l.rank := by
    intro k l
    cases k <;> cases l <;> decide
  rw [Before, hkinds]

instance : Std.Irrefl Before where
  irrefl a := by simp [before_iff]

instance : Std.Antisymm Before where
  antisymm a b hab hba := by
    rw [before_iff] at hab hba
    obtain hab | ⟨hkind, hab⟩ := hab <;> obtain hba | ⟨hkind', hba⟩ := hba
    · exact absurd hba (Nat.lt_asymm hab)
    · exact absurd (congrArg VariableKind.rank hkind') (Nat.ne_of_gt hab)
    · exact absurd (congrArg VariableKind.rank hkind) (Nat.ne_of_gt hba)
    · exact absurd hba (Nat.lt_asymm hab)

theorem precedes_iff {a b : Variable} : a.precedes b = true ↔
    a.kind.rank < b.kind.rank ∨ a.kind.rank = b.kind.rank ∧ a.index ≤ b.index := by
  simp [precedes]

theorem precedes_trans (a b c : Variable) (hab : a.precedes b = true) (hbc : b.precedes c = true) :
    a.precedes c = true := by
  rw [precedes_iff] at hab hbc ⊢
  omega

theorem precedes_total (a b : Variable) : (a.precedes b || b.precedes a) = true := by
  rw [Bool.or_eq_true, precedes_iff, precedes_iff]
  omega

theorem before_of_precedes {a b : Variable} (h : a.precedes b = true)
    (hslot : a.kind = b.kind → a.index ≠ b.index) : a.Before b := by
  rw [before_iff]
  obtain hrank | ⟨hrank, hindex⟩ := precedes_iff.mp h
  · exact .inl hrank
  · have hkind := VariableKind.rank_injective hrank
    exact .inr ⟨hkind, Nat.lt_of_le_of_ne hindex (hslot hkind)⟩

end Variable

/-! ## What is listed -/

theorem Table.values_eq (table : Table) :
    table.entries.values = table.entries.toList.map Prod.snd := by
  rw [List.map_eq_foldr]
  exact Std.TreeMap.foldr_eq_foldr_toList

theorem Table.mem_ordered {table : Table} {v : Variable} :
    v ∈ table.ordered ↔ ∃ name, table.get? name = some v := by
  simp only [ordered, List.mem_mergeSort, values_eq, List.mem_map, Prod.exists, get?,
    Std.TreeMap.mem_toList_iff_getElem?_eq_some, exists_eq_right]

variable {ds : List Declaration} {v : Variable}

theorem mem_ordered_tableOf : v ∈ (tableOf ds).ordered ↔ Declaration.Survives ds v := by
  rw [Table.mem_ordered]
  constructor
  · rintro ⟨name, hname⟩
    exact (get?_tableOf_eq_some_iff.mp hname).2
  · intro h
    exact ⟨v.name, get?_tableOf_name.mpr h⟩

/-- Nothing is listed twice: every variable is stored under its own name. -/
theorem nodup_ordered (ds : List Declaration) : (tableOf ds).ordered.Nodup := by
  refine (List.mergeSort_perm _ _).nodup_iff.mpr ?_
  rw [Table.values_eq, List.nodup_map_iff_inj_on]
  · rintro ⟨a, v⟩ ha ⟨b, w⟩ hb rfl
    rw [Std.TreeMap.mem_toList_iff_getElem?_eq_some] at ha hb
    have hva := (get?_tableOf_eq_some_iff.mp ha).1
    have hvb := (get?_tableOf_eq_some_iff.mp hb).1
    rw [← hva, ← hvb]
  · refine Std.TreeMap.distinct_keys_toList.imp ?_
    rintro x y hne rfl
    exact hne Std.ReflCmp.compare_self

/-- The listing is sorted strictly, since no two variables of a kind have the same slot. -/
theorem pairwise_ordered (hfit : Declaration.Fit ds) :
    (tableOf ds).ordered.Pairwise Variable.Before := by
  have hsorted := List.pairwise_mergeSort Variable.precedes_trans Variable.precedes_total
    (tableOf ds).entries.values
  refine (hsorted.and (nodup_ordered ds)).imp_of_mem ?_
  rintro v w hv hw ⟨hle, hne⟩
  refine Variable.before_of_precedes hle fun hkind hindex => hne ?_
  exact (mem_ordered_tableOf.mp hv).eq_of_slot hfit (mem_ordered_tableOf.mp hw) hkind hindex

/-- A strictly sorted list of the survivors is the listing. -/
theorem eq_ordered (hfit : Declaration.Fit ds) {vs : List Variable}
    (hsorted : vs.Pairwise Variable.Before) (hmem : ∀ v, v ∈ vs ↔ Declaration.Survives ds v) :
    vs = (tableOf ds).ordered :=
  hsorted.eq_of_mem_iff (pairwise_ordered hfit) fun v => (hmem v).trans mem_ordered_tableOf.symm

/-! ## Other names -/

/-- The declaration of another name. -/
def Declaration.rename (f : String → String) (d : Declaration) : Declaration :=
  { d with name := f d.name }

/-- The variable under another name. -/
def Variable.rename (f : String → String) (v : Variable) : Variable := { v with name := f v.name }

theorem Declaration.countP_rename (f : String → String) (ds : List Declaration)
    (kind : VariableKind) :
    (ds.map (rename f)).countP (·.kind = kind) = ds.countP (·.kind = kind) := by
  rw [List.countP_map]
  rfl

/-- Renamed declarations after others that keep their names say of a new name what they said of the
old one. -/
theorem Declaration.lookup_rename {f : String → String} {name : String}
    (kept : List Declaration) {ds : List Declaration}
    (hkept : ∀ d ∈ kept, d.name ≠ name ∧ d.name ≠ f name)
    (hds : ∀ d ∈ ds, f d.name = f name → d.name = name) :
    lookup (kept ++ ds.map (rename f)) (f name) =
      (lookup (kept ++ ds) name).map (Variable.rename f) := by
  induction ds using List.reverseRecOn with
  | nil =>
    have hnone : ∀ other, (∀ d ∈ kept, d.name ≠ other) → lookup kept other = none := by
      intro other hother
      rw [← Option.not_isSome_iff_eq_none, isSome_lookup_iff, List.mem_map]
      rintro ⟨d, hd, rfl⟩
      exact hother d hd rfl
    rw [List.map_nil, List.append_nil, hnone _ fun d hd => (hkept d hd).1,
      hnone _ fun d hd => (hkept d hd).2]
    rfl
  | append_singleton ds d ih =>
    have hlast := hds d (by simp)
    have hiff : f d.name = f name ↔ d.name = name := ⟨hlast, fun h => by rw [h]⟩
    rw [List.map_append, List.map_singleton, ← List.append_assoc, ← List.append_assoc,
      lookup_concat, lookup_concat, ih fun d' hd' => hds d' (by simp [hd'])]
    simp only [rename, hiff, List.countP_append]
    split
    · rw [← countP_rename f ds]
      rfl
    · rfl

theorem Variable.rename_before (f : String → String) (v w : Variable) :
    (v.rename f).Before (w.rename f) ↔ v.Before w := Iff.rfl

theorem Declaration.survives_rename {f : String → String}
    (hf : ∀ a ∈ ds.map Declaration.name, ∀ b ∈ ds.map Declaration.name, f a = f b → a = b)
    (w : Variable) : Survives (ds.map (rename f)) w ↔ ∃ v, Survives ds v ∧ v.rename f = w := by
  have hlookup : ∀ d ∈ ds, lookup (ds.map (rename f)) (f d.name) =
      (lookup ds d.name).map (Variable.rename f) := by
    intro d hd
    exact lookup_rename [] (by simp) fun e he =>
      hf e.name (List.mem_map_of_mem he) d.name (List.mem_map_of_mem hd)
  have hdeclared : ∀ {ds' v}, lookup ds' v.name = some v → ∃ d ∈ ds', d.name = v.name := by
    intro ds' v hv
    exact List.mem_map.mp ((isSome_lookup_iff ds' v.name).mp (Option.isSome_of_eq_some hv))
  constructor
  · intro hw
    have hfound := lookup_eq_some_iff.mpr ⟨rfl, hw⟩
    obtain ⟨e, he, hename⟩ := hdeclared hfound
    obtain ⟨d, hd, rfl⟩ := List.mem_map.mp he
    rw [← hename] at hfound
    obtain ⟨v, hv, rfl⟩ := Option.map_eq_some_iff.mp ((hlookup d hd).symm.trans hfound)
    exact ⟨v, (lookup_eq_some_iff.mp hv).2, rfl⟩
  · rintro ⟨v, hv, rfl⟩
    have hfound := lookup_eq_some_iff.mpr ⟨rfl, hv⟩
    obtain ⟨d, hd, hname⟩ := hdeclared hfound
    have hnew := hlookup d hd
    rw [hname, hfound] at hnew
    exact (lookup_eq_some_iff.mp hnew).2

/-- New names for the variables change the names in the listing and nothing else. -/
theorem ordered_rename (hfit : Declaration.Fit ds) {f : String → String}
    (hf : ∀ a ∈ ds.map Declaration.name, ∀ b ∈ ds.map Declaration.name, f a = f b → a = b) :
    (tableOf (ds.map (Declaration.rename f))).ordered =
      (tableOf ds).ordered.map (Variable.rename f) := by
  have hfit' : Declaration.Fit (ds.map (Declaration.rename f)) := fun kind => by
    rw [Declaration.countP_rename]
    exact hfit kind
  refine (eq_ordered hfit' ?_ fun w => ?_).symm
  · exact (pairwise_ordered hfit).map _ fun v w => (Variable.rename_before f v w).mpr
  · simp only [List.mem_map, mem_ordered_tableOf, Declaration.survives_rename hf]

/-! ## The order of declaration -/

namespace Declaration

/-- Of two variables of one kind the later one has the higher slot. -/
theorem pairwise_history (hfit : Fit ds) :
    (history ds).Pairwise fun v w => v.kind = w.kind → v.index < w.index := by
  induction ds using List.reverseRecOn with
  | nil => exact .nil
  | append_singleton ds d ih =>
    rw [history_concat, List.pairwise_append]
    refine ⟨ih hfit.of_append, List.pairwise_singleton _ _, ?_⟩
    intro v hv w hw hkind
    obtain rfl := List.mem_singleton.mp hw
    have hlt := index_lt_of_mem_history hfit.of_append hv
    rw [hkind] at hlt
    rw [hfit.index_made]
    exact hlt

end Declaration

/-- The listing of one kind is the history of that kind, less the variables that are gone. -/
theorem ordered_filter_kind (hfit : Declaration.Fit ds) (kind : VariableKind) :
    (tableOf ds).ordered.filter (·.kind = kind) =
      (Declaration.history ds).filter fun v =>
        v.kind = kind ∧ (tableOf ds).get? v.name = some v := by
  refine List.Pairwise.eq_of_mem_iff (r := Variable.Before) ?_ ?_ fun v => ?_
  · exact (pairwise_ordered hfit).filter _
  · refine ((Declaration.pairwise_history hfit).filter _).imp_of_mem ?_
    intro v w hv hw hlt
    have hkind : v.kind = w.kind := by grind
    exact .inr ⟨hkind, hlt hkind⟩
  · simp only [List.mem_filter, mem_ordered_tableOf, get?_tableOf_name, decide_eq_true_eq]
    constructor
    · rintro ⟨hv, hkind⟩
      exact ⟨hv.mem_history, hkind, hv⟩
    · rintro ⟨-, hkind, hv⟩
      exact ⟨hv, hkind⟩

/-- **The listing is complete and strictly sorted.** After any declarations the listing of the table
holds the variables that the table holds, each once. As long as there are at most 65535 declarations
of each kind, it is sorted strictly, by kind and then by slot. It does not depend on the names:
other names, different for different variables, give the same listing with the other names in it.
The part of one kind is what has been declared of this kind, in the order of declaration, less what
the table holds no longer. -/
theorem listing_is_complete_and_sorted (ds : List Declaration) :
    (∀ v, v ∈ (tableOf ds).ordered ↔ ∃ name, (tableOf ds).get? name = some v) ∧
    (tableOf ds).ordered.Nodup ∧
    ((∀ kind, ds.countP (·.kind = kind) ≤ 65535) →
      (tableOf ds).ordered.Pairwise Variable.Before ∧
      (∀ f : String → String,
        (∀ a ∈ ds.map Declaration.name, ∀ b ∈ ds.map Declaration.name, f a = f b → a = b) →
        (tableOf (ds.map (Declaration.rename f))).ordered =
          (tableOf ds).ordered.map (Variable.rename f)) ∧
      ∀ kind, (tableOf ds).ordered.filter (·.kind = kind) =
        (Declaration.history ds).filter fun v =>
          v.kind = kind ∧ (tableOf ds).get? v.name = some v) := by
  refine ⟨fun _ => Table.mem_ordered, nodup_ordered ds, fun hfew => ?_⟩
  have hfit := Declaration.fit_of_le hfew
  exact ⟨pairwise_ordered hfit, fun _ => ordered_rename hfit, ordered_filter_kind hfit⟩

end Jack
