import Jack.Proofs.Syntax.Scope

/-!
# Slots of variables

A table is filled by declarations, one after the other, and a name may be declared any number of
times, also with another kind. What the table then holds is read off the declarations:

1. every declaration makes a variable, whose slot is the number of declarations of its kind before
   it, in 16 bits (`Declaration.history`);
2. a variable survives when no declaration after its own has its name (`Declaration.Survives`). One
   more declaration ends the variable of its name and no other (`Declaration.survives_concat`), so
   the table holds exactly the variables that survive (`Declaration.lookup_eq_some_iff`).

The rest holds as long as there are slots enough for the declarations of each kind
(`Declaration.Fit`):

3. the slot of a variable is below the number of declarations of its kind
   (`Declaration.index_lt_of_mem_history`);
4. a declaration takes a slot above all that were given out for its kind, also where their owners
   are gone, so no two survivors share one (`Declaration.Survives.eq_of_slot`);
5. without repetitions all variables survive, and the slots of a kind count up in the order of the
   declarations (`Declaration.map_index_filter`).

`table_follows_declarations` puts this together. For the names in a subroutine, which are declared
in two scopes, it follows that different ones have different places
(`SubroutineDec.HasSlots.slot_ne`).
-/

namespace Jack

namespace Declaration

variable {ds : List Declaration} {d : Declaration} {v w : Variable} {name : String}

/-- The variable that a declaration makes after earlier ones: its slot is the number of those that
have its kind, in 16 bits. -/
def made (d : Declaration) (earlier : List Declaration) : Variable :=
  ⟨d.name, d.type, d.kind, wrap16 (earlier.countP (·.kind = d.kind))⟩

/-- All variables that the declarations make, in the order of the declarations. -/
def history (ds : List Declaration) : List Variable := ds.mapIdx fun i d => d.made (ds.take i)

theorem history_concat (ds : List Declaration) (d : Declaration) :
    history (ds ++ [d]) = history ds ++ [d.made ds] := by
  unfold history
  rw [List.mapIdx_concat, List.take_left]
  congr 1
  refine List.ext_getElem (by simp) fun i hi _ => ?_
  rw [List.length_mapIdx] at hi
  rw [List.getElem_mapIdx, List.getElem_mapIdx, List.take_append_of_le_length (Nat.le_of_lt hi)]

/-- There is a slot for each declaration. -/
def Fit (ds : List Declaration) : Prop := ∀ kind, ds.countP (·.kind = kind) ≤ 65536

theorem fit_of_le (h : ∀ kind, ds.countP (·.kind = kind) ≤ 65535) : Fit ds :=
  fun kind => Nat.le_succ_of_le (h kind)

theorem Fit.of_append {es : List Declaration} (h : Fit (ds ++ es)) : Fit ds := by
  intro kind
  have hle := h kind
  rw [List.countP_append] at hle
  exact Nat.le_of_add_right_le hle

/-- The slot that a declaration takes is the number of earlier ones of its kind. -/
theorem Fit.index_made (h : Fit (ds ++ [d])) :
    (d.made ds).index = ds.countP (·.kind = d.kind) := by
  have hle := h d.kind
  rw [List.countP_append, List.countP_singleton, if_pos (by simp)] at hle
  exact wrap16_of_le (Nat.le_of_succ_le_succ hle)

/-- The slot of a variable is below the number of declarations of its kind. -/
theorem index_lt_of_mem_history (hfit : Fit ds) (h : v ∈ history ds) :
    v.index < ds.countP (·.kind = v.kind) := by
  induction ds using List.reverseRecOn with
  | nil => cases h
  | append_singleton ds d ih =>
    rw [history_concat, List.mem_append, List.mem_singleton] at h
    obtain h | rfl := h
    · rw [List.countP_append]
      exact Nat.lt_add_right _ (ih hfit.of_append h)
    · rw [hfit.index_made, List.countP_append, List.countP_singleton]
      exact Nat.lt_add_of_pos_right (by simp [made])

/-- The variable was made by the last declaration of its name. -/
def Survives (ds : List Declaration) (v : Variable) : Prop :=
  ∃ earlier d later, ds = earlier ++ d :: later ∧ v = d.made earlier ∧ ∀ e ∈ later, e.name ≠ v.name

theorem not_survives_nil (v : Variable) : ¬ Survives [] v := by
  rintro ⟨earlier, d, later, hsplit, -⟩
  simp at hsplit

/-- One more declaration puts its own variable in the place of the one with its name. -/
theorem survives_concat :
    Survives (ds ++ [d]) v ↔ v = d.made ds ∨ Survives ds v ∧ d.name ≠ v.name := by
  constructor
  · rintro ⟨earlier, d', later, hsplit, hv, hlater⟩
    obtain rfl | ⟨later, e, rfl⟩ := List.eq_nil_or_concat later
    · obtain ⟨rfl, hd⟩ := List.append_inj' hsplit rfl
      obtain rfl := List.singleton_inj.mp hd
      exact .inl hv
    · rw [List.concat_eq_append] at hsplit hlater
      rw [← List.cons_append, ← List.append_assoc] at hsplit
      obtain ⟨rfl, hd⟩ := List.append_inj' hsplit rfl
      obtain rfl := List.singleton_inj.mp hd
      exact .inr ⟨⟨earlier, d', later, rfl, hv, fun e he => hlater e (by simp [he])⟩,
        hlater d (by simp)⟩
  · rintro (rfl | ⟨⟨earlier, d', later, rfl, hv, hlater⟩, hname⟩)
    · exact ⟨ds, d, [], rfl, rfl, by simp⟩
    · refine ⟨earlier, d', later ++ [d], by simp, hv, ?_⟩
      simpa [or_imp, forall_and] using ⟨hlater, hname⟩

/-- A name stands for the variable of this name that survives. -/
theorem lookup_eq_some_iff : lookup ds name = some v ↔ v.name = name ∧ Survives ds v := by
  induction ds using List.reverseRecOn with
  | nil => simp [lookup_nil, not_survives_nil]
  | append_singleton ds d ih =>
    rw [lookup_concat, survives_concat]
    by_cases hname : d.name = name
    · rw [if_pos hname, Option.some_inj]
      constructor
      · rintro rfl
        exact ⟨hname, .inl rfl⟩
      · rintro ⟨hv, rfl | ⟨-, hne⟩⟩
        · rfl
        · exact absurd (hname.trans hv.symm) hne
    · rw [if_neg hname, ih]
      constructor
      · rintro ⟨rfl, hsurvives⟩
        exact ⟨rfl, .inr ⟨hsurvives, hname⟩⟩
      · rintro ⟨rfl, rfl | ⟨hsurvives, -⟩⟩
        · exact absurd rfl hname
        · exact ⟨rfl, hsurvives⟩

theorem Survives.mem_history (h : Survives ds v) : v ∈ history ds := by
  induction ds using List.reverseRecOn with
  | nil => exact absurd h (not_survives_nil v)
  | append_singleton ds d ih =>
    rw [history_concat, List.mem_append, List.mem_singleton]
    obtain h | ⟨h, -⟩ := survives_concat.mp h
    · exact .inr h
    · exact .inl (ih h)

theorem Survives.countP_pos (h : Survives ds v) : 0 < ds.countP (·.kind = v.kind) := by
  obtain ⟨earlier, d, later, rfl, rfl, -⟩ := h
  rw [List.countP_pos_iff]
  exact ⟨d, by simp, by simp [made]⟩

/-- A slot is a number of 16 bits. -/
theorem Survives.index_le (h : Survives ds v) : v.index ≤ 65535 := by
  obtain ⟨earlier, d, later, -, rfl, -⟩ := h
  exact Nat.le_of_lt_succ (Nat.mod_lt _ (by omega))

theorem Survives.index_lt (hfit : Fit ds) (h : Survives ds v) :
    v.index < ds.countP (·.kind = v.kind) := index_lt_of_mem_history hfit h.mem_history

/-- The slot of the variable that a name stands for is below the number of declarations of its
kind. -/
theorem index_lt_countP (hfit : Fit ds) (h : lookup ds name = some v) :
    v.index < ds.countP (·.kind = v.kind) := (lookup_eq_some_iff.mp h).2.index_lt hfit

/-- Survivors of one kind with one slot are the same. -/
theorem Survives.eq_of_slot (hfit : Fit ds) (hv : Survives ds v) (hw : Survives ds w)
    (hkind : v.kind = w.kind) (hindex : v.index = w.index) : v = w := by
  induction ds using List.reverseRecOn with
  | nil => exact absurd hv (not_survives_nil v)
  | append_singleton ds d ih =>
    -- the last declaration takes a slot above all that were given out for its kind
    have hfresh : ∀ u, Survives ds u → u.kind = d.kind → u.index ≠ (d.made ds).index := by
      intro u hu hsame
      have hlt := hu.index_lt hfit.of_append
      rw [hsame] at hlt
      rw [hfit.index_made]
      exact Nat.ne_of_lt hlt
    obtain rfl | ⟨hv, -⟩ := survives_concat.mp hv <;> obtain rfl | ⟨hw, -⟩ := survives_concat.mp hw
    · rfl
    · exact absurd hindex.symm (hfresh w hw hkind.symm)
    · exact absurd hindex (hfresh v hv hkind)
    · exact ih hfit.of_append hv hw

/-- Different names stand for variables in different slots. -/
theorem slot_ne (hfit : Fit ds) {a b : String} (hab : a ≠ b) (ha : lookup ds a = some v)
    (hb : lookup ds b = some w) : (v.kind, v.index) ≠ (w.kind, w.index) := by
  intro hslot
  obtain ⟨hkind, hindex⟩ := Prod.mk.inj hslot
  obtain ⟨rfl, hv⟩ := lookup_eq_some_iff.mp ha
  obtain ⟨rfl, hw⟩ := lookup_eq_some_iff.mp hb
  exact hab (congrArg Variable.name (hv.eq_of_slot hfit hw hkind hindex))

/-- Where no name is declared twice, the slots of a kind count up from 0. -/
theorem map_index_filter (hfit : Fit ds) (h : (ds.map Declaration.name).Nodup)
    (kind : VariableKind) :
    (ds.filter (·.kind = kind)).map (fun d => (lookup ds d.name).map Variable.index) =
      (List.range (ds.countP (·.kind = kind))).map some := by
  induction ds using List.reverseRecOn with
  | nil => rfl
  | append_singleton ds d ih =>
    rw [List.map_append, List.nodup_append] at h
    obtain ⟨hds, -, hnew⟩ := h
    have hold : (ds.filter (·.kind = kind)).map
          (fun e => (lookup (ds ++ [d]) e.name).map Variable.index) =
        (ds.filter (·.kind = kind)).map (fun e => (lookup ds e.name).map Variable.index) := by
      refine List.map_congr_left fun e he => ?_
      have hne : e.name ≠ d.name :=
        hnew e.name (List.mem_map_of_mem (List.mem_filter.mp he).1) d.name (by simp)
      rw [lookup_concat, if_neg hne.symm]
    rw [List.filter_append, List.map_append, hold, ih hfit.of_append hds, List.countP_append]
    by_cases hkind : d.kind = kind
    · have hslot : wrap16 (ds.countP (·.kind = d.kind)) = ds.countP (·.kind = d.kind) :=
        hfit.index_made
      simp only [hkind] at hslot
      simp [hkind, lookup_concat, List.range_succ, hslot]
    · simp [hkind]

end Declaration

/-! ## Tables -/

variable {ds : List Declaration} {v : Variable} {name : String}

theorem get?_tableOf_eq_some_iff :
    (tableOf ds).get? name = some v ↔ v.name = name ∧ Declaration.Survives ds v := by
  rw [get?_tableOf, Declaration.lookup_eq_some_iff]

/-- The table holds the variables that survive. -/
theorem get?_tableOf_name : (tableOf ds).get? v.name = some v ↔ Declaration.Survives ds v := by
  rw [get?_tableOf_eq_some_iff, and_iff_right rfl]

/-- A name gives the variable of its last declaration. -/
theorem get?_tableOf_iff_last :
    (tableOf ds).get? name = some v ↔
      ∃ earlier d later, ds = earlier ++ d :: later ∧ d.name = name ∧
        (∀ e ∈ later, e.name ≠ name) ∧ v = d.made earlier := by
  rw [get?_tableOf_eq_some_iff]
  constructor
  · rintro ⟨rfl, earlier, d, later, hsplit, rfl, hlater⟩
    exact ⟨earlier, d, later, hsplit, rfl, hlater, rfl⟩
  · rintro ⟨earlier, d, later, hsplit, rfl, hlater, rfl⟩
    exact ⟨rfl, earlier, d, later, hsplit, rfl, hlater⟩

/-- A declaration returns the variable of its name, and this is the only one to go. -/
theorem get?_declare (ds : List Declaration) (d : Declaration) (v : Variable) :
    ((tableOf ds).declare d.name d.type d.kind).2.get? v.name = some v ↔
      v = d.made ds ∨ (tableOf ds).get? v.name = some v ∧
        ((tableOf ds).declare d.name d.type d.kind).1 ≠ some v := by
  have hafter : ((tableOf ds).declare d.name d.type d.kind).2 = tableOf (ds ++ [d]) :=
    (tableOf_concat ds d).symm
  rw [hafter, get?_tableOf_name, get?_tableOf_name, Declaration.survives_concat]
  refine or_congr_right (and_congr_right fun hv => not_congr ?_)
  show d.name = v.name ↔ (tableOf ds).get? d.name = some v
  rw [get?_tableOf_eq_some_iff, and_iff_left hv]
  exact eq_comm

/-- **A table is its declarations.** After any declarations the counter of a kind shows the number
of declarations of that kind, in 16 bits. A name gives the variable of its last declaration, whose
slot is the number of earlier declarations of its kind, in 16 bits. One more declaration returns the
variable that it replaces and leaves all others. As long as there are at most 65535 declarations of
each kind, counters and slots are the numbers themselves, every slot is below the counter of its
kind, and different names have different slots. Where moreover no name is declared twice, the slots
of each kind count up from 0 in the order of the declarations. -/
theorem table_follows_declarations (ds : List Declaration) :
    (∀ kind, (tableOf ds).count kind = wrap16 (ds.countP (·.kind = kind))) ∧
    (∀ name v, (tableOf ds).get? name = some v ↔
      ∃ earlier d later, ds = earlier ++ d :: later ∧ d.name = name ∧
        (∀ e ∈ later, e.name ≠ name) ∧
        v = ⟨d.name, d.type, d.kind, wrap16 (earlier.countP (·.kind = d.kind))⟩) ∧
    (∀ d : Declaration, ∃ replaced,
      (tableOf ds).declare d.name d.type d.kind = (replaced, tableOf (ds ++ [d])) ∧
      replaced = (tableOf ds).get? d.name ∧
      ∀ v, (tableOf (ds ++ [d])).get? v.name = some v ↔
        v = ⟨d.name, d.type, d.kind, (tableOf ds).count d.kind⟩ ∨
          (tableOf ds).get? v.name = some v ∧ replaced ≠ some v) ∧
    ((∀ kind, ds.countP (·.kind = kind) ≤ 65535) →
      (∀ kind, (tableOf ds).count kind = ds.countP (·.kind = kind)) ∧
      (∀ name v, (tableOf ds).get? name = some v ↔
        ∃ earlier d later, ds = earlier ++ d :: later ∧ d.name = name ∧
          (∀ e ∈ later, e.name ≠ name) ∧
          v = ⟨d.name, d.type, d.kind, earlier.countP (·.kind = d.kind)⟩) ∧
      (∀ name v, (tableOf ds).get? name = some v → v.index < (tableOf ds).count v.kind) ∧
      (∀ a b v w, a ≠ b → (tableOf ds).get? a = some v → (tableOf ds).get? b = some w →
        (v.kind, v.index) ≠ (w.kind, w.index)) ∧
      ((ds.map Declaration.name).Nodup → ∀ kind,
        (ds.filter (·.kind = kind)).map (fun d => ((tableOf ds).get? d.name).map Variable.index) =
          (List.range ((tableOf ds).count kind)).map some)) := by
  refine ⟨count_tableOf ds, fun _ _ => get?_tableOf_iff_last, fun d => ?_, fun hfew => ?_⟩
  · rw [tableOf_concat]
    refine ⟨(tableOf ds).get? d.name, rfl, rfl, fun v => ?_⟩
    rw [count_tableOf]
    exact get?_declare ds d v
  have hfit := Declaration.fit_of_le hfew
  have hcount : ∀ kind, (tableOf ds).count kind = ds.countP (·.kind = kind) :=
    fun kind => (count_tableOf ds kind).trans (wrap16_of_le (hfew kind))
  simp only [hcount]
  refine ⟨fun kind => trivial, fun name v => ?_, ?_, ?_, ?_⟩
  · rw [get?_tableOf_iff_last]
    refine exists_congr fun earlier => exists_congr fun d => exists_congr fun later =>
      and_congr_right fun hsplit => ?_
    rw [hsplit, List.append_cons] at hfit
    rw [← hfit.of_append.index_made]
    rfl
  · intro name v hv
    exact (get?_tableOf_eq_some_iff.mp hv).2.index_lt hfit
  · intro a b v w hab ha hb
    rw [get?_tableOf] at ha hb
    exact Declaration.slot_ne hfit hab ha hb
  · intro hnodup kind
    simp only [get?_tableOf]
    exact Declaration.map_index_filter hfit hnodup kind

/-! ## The variables of a class -/

/-- The names that a class declares as statics or as fields, one for each declaration. -/
def ClassDec.namesOf (c : ClassDec) (storage : ClassStorage) : List String :=
  (c.vars.filter (·.storage = storage)).flatMap (·.vars.names)

theorem ClassStorage.kind_inj {s t : ClassStorage} (h : s.kind = t.kind) : s = t := by
  cases s <;> cases t <;> simp [kind] at h ⊢

/-- The statics and the fields of a class have one slot for each name. -/
theorem ClassDec.countP_declarations (c : ClassDec) (storage : ClassStorage) :
    c.declarations.countP (·.kind = storage.kind) = (c.namesOf storage).length := by
  unfold declarations namesOf
  induction c.vars with
  | nil => rfl
  | cons d vars ih =>
    rw [List.flatMap_cons, List.countP_append, ih, List.filter_cons,
      Declaration.countP_of_kind fun v hv => VariableDec.kind_of_mem hv]
    by_cases hd : d.storage = storage
    · simp [hd, VariableDec.declarations]
    · have hkind : d.storage.kind ≠ storage.kind := fun h => hd (ClassStorage.kind_inj h)
      simp [hd, hkind]

theorem ClassDec.countP_fields (c : ClassDec) :
    c.declarations.countP (·.kind = .field) = (c.namesOf .field).length :=
  c.countP_declarations .field

/-- A class declares neither parameters nor locals. -/
theorem ClassDec.countP_declarations_eq_zero (c : ClassDec) {k : VariableKind}
    (h : ∀ storage : ClassStorage, storage.kind ≠ k) :
    c.declarations.countP (·.kind = k) = 0 := by
  rw [List.countP_eq_zero]
  intro v hv
  obtain ⟨d, -, hv⟩ := List.mem_flatMap.mp hv
  simp [VariableDec.kind_of_mem hv, h]

/-! ## The variables of a subroutine -/

/-- The number of variables of a kind that a subroutine can reach. -/
def SubroutineDec.capacity (c : ClassDec) (d : SubroutineDec) : VariableKind → Nat
  | .static => (c.namesOf .static).length
  | .field => (c.namesOf .field).length
  | .argument => d.arity
  | .local_ => d.localVariables.length

theorem SubroutineDec.countP_scope_le (c : ClassDec) (d : SubroutineDec) (k : VariableKind) :
    (d.scope c.name).countP (·.kind = k) ≤ d.capacity c k := by
  rw [countP_scope]
  cases k <;> simp [capacity]

theorem SubroutineDec.countP_class_le (c : ClassDec) (d : SubroutineDec) (k : VariableKind) :
    c.declarations.countP (·.kind = k) ≤ d.capacity c k := by
  cases k with
  | static => exact Nat.le_of_eq (c.countP_declarations .static)
  | field => exact Nat.le_of_eq (c.countP_declarations .field)
  | argument | local_ =>
    rw [c.countP_declarations_eq_zero fun s => by cases s <;> simp [ClassStorage.kind]]
    exact Nat.zero_le _

/-- There is a slot for each variable that the subroutine can reach, and each counter shows their
number. -/
def SubroutineDec.HasSlots (c : ClassDec) (d : SubroutineDec) : Prop :=
  ∀ kind, d.capacity c kind ≤ 65535

namespace SubroutineDec

variable {c : ClassDec} {d : SubroutineDec}

theorem HasSlots.fit_scope (h : d.HasSlots c) : Declaration.Fit (d.scope c.name) :=
  Declaration.fit_of_le fun kind => Nat.le_trans (d.countP_scope_le c kind) (h kind)

theorem HasSlots.fit_class (h : d.HasSlots c) : Declaration.Fit c.declarations :=
  Declaration.fit_of_le fun kind => Nat.le_trans (d.countP_class_le c kind) (h kind)

/-- A subroutine declares parameters and locals only. -/
theorem isClassLevel_of_scope {name : String} {v : Variable}
    (h : Declaration.lookup (d.scope c.name) name = some v) : v.kind.isClassLevel = false := by
  have hpos := (Declaration.lookup_eq_some_iff.mp h).2.countP_pos
  rw [countP_scope] at hpos
  cases hkind : v.kind with
  | argument | local_ => rfl
  | static | field => simp [hkind] at hpos

/-- A class declares statics and fields only. -/
theorem isClassLevel_of_class {name : String} {v : Variable}
    (h : Declaration.lookup c.declarations name = some v) : v.kind.isClassLevel = true := by
  have hpos := (Declaration.lookup_eq_some_iff.mp h).2.countP_pos
  cases hkind : v.kind with
  | static | field => rfl
  | argument | local_ =>
    rw [c.countP_declarations_eq_zero fun s => by
      cases s <;> simp [hkind, ClassStorage.kind]] at hpos
    exact absurd hpos (Nat.lt_irrefl 0)

theorem index_le_of_find? {name : String} {v : Variable}
    (h : (d.environment c).find? name = some v) : v.index ≤ 65535 := by
  obtain h | ⟨-, h⟩ := Option.or_eq_some_iff.mp h
  · exact (Declaration.lookup_eq_some_iff.mp h).2.index_le
  · exact (Declaration.lookup_eq_some_iff.mp h).2.index_le

/-- Different names stand for variables in different places. -/
theorem HasSlots.slot_ne (h : d.HasSlots c) {a b : String} {v w : Variable} (hab : a ≠ b)
    (ha : (d.environment c).find? a = some v) (hb : (d.environment c).find? b = some w) :
    (v.kind, v.index) ≠ (w.kind, w.index) := by
  -- two variables of one kind are in the same scope
  have hscopes : v.kind.isClassLevel ≠ w.kind.isClassLevel →
      (v.kind, v.index) ≠ (w.kind, w.index) := by
    intro hne hslot
    exact hne (congrArg VariableKind.isClassLevel (Prod.mk.inj hslot).1)
  obtain ha | ⟨-, ha⟩ := Option.or_eq_some_iff.mp ha <;>
    obtain hb | ⟨-, hb⟩ := Option.or_eq_some_iff.mp hb
  · exact Declaration.slot_ne h.fit_scope hab ha hb
  · exact hscopes (by simp [isClassLevel_of_scope ha, isClassLevel_of_class hb])
  · exact hscopes (by simp [isClassLevel_of_class ha, isClassLevel_of_scope hb])
  · exact Declaration.slot_ne h.fit_class hab ha hb

end SubroutineDec

end Jack
