import Jack.Proofs.File.Path

/-!
# File trees

What makes a list of entries a tree of files (`WellFormed`), and where paths lead in it. A path
*enters* a directory if its steps lead there (`Enters`); the empty path enters the working
directory. A name below such a path is found in that directory (`Enters.find_join`), and the parent
of that name enters the directory again (`enters_core_iff`). Directories that are made later do not
change where a path leads (`Extends.walk`).
-/

namespace Jack

namespace FileTree

variable {tree tree' : FileTree} {location other top : Location} {node : Node} {name : String}
  {path directory : Path} {xs ys : List Component} {row : List String}

/-! ## Entries -/

/-- The entries are those of a tree: each location has one of them, its names are proper, and above
it is a directory. The working directory is a directory. -/
structure WellFormed (tree : FileTree) : Prop where
  nodup : (tree.entries.map Prod.fst).Nodup
  proper : ∀ entry ∈ tree.entries, ∀ name ∈ entry.1, ProperName name
  nested : ∀ entry ∈ tree.entries,
    entry.1 ≠ [] ∧ tree.node? entry.1.dropLast = some .directory
  working : tree.node? tree.workingDirectory = some .directory

theorem wellFormed_iff : tree.WellFormed ↔
    (tree.entries.map Prod.fst).Nodup ∧
    (∀ entry ∈ tree.entries, ∀ name ∈ entry.1, ProperName name) ∧
    (∀ entry ∈ tree.entries, entry.1 ≠ [] ∧ tree.node? entry.1.dropLast = some .directory) ∧
    tree.node? tree.workingDirectory = some .directory :=
  ⟨fun h => ⟨h.1, h.2, h.3, h.4⟩, fun h => ⟨h.1, h.2.1, h.2.2.1, h.2.2.2⟩⟩

instance (tree : FileTree) : Decidable tree.WellFormed := decidable_of_iff' _ wellFormed_iff

@[simp]
theorem node?_nil (tree : FileTree) : tree.node? [] = some .directory := if_pos rfl

theorem mem_entries (h : tree.node? location = some node) (hne : location ≠ []) :
    (location, node) ∈ tree.entries := by
  rw [node?, if_neg hne] at h
  obtain ⟨before, after, hentries, -⟩ := List.lookup_eq_some_iff.mp h
  simp [hentries]

/-- What is listed is what is found. -/
theorem node?_of_mem (h : (tree.entries.map Prod.fst).Nodup) (hne : location ≠ [])
    (hmem : (location, node) ∈ tree.entries) : tree.node? location = some node := by
  rw [node?, if_neg hne, List.lookup_eq_some_iff]
  obtain ⟨before, after, hentries⟩ := List.append_of_mem hmem
  refine ⟨before, after, hentries, fun entry hentry => ?_⟩
  rw [hentries, List.map_append, List.map_cons, List.nodup_append] at h
  simpa using (h.2.2 entry.1 (List.mem_map_of_mem hentry) location List.mem_cons_self).symm

theorem WellFormed.node?_of_mem (h : tree.WellFormed) (hmem : (location, node) ∈ tree.entries) :
    tree.node? location = some node :=
  FileTree.node?_of_mem h.nodup (h.nested _ hmem).1 hmem

/-- What is in a directory is there under a proper name. -/
theorem WellFormed.above (h : tree.WellFormed)
    (hnode : tree.node? (location ++ [name]) = some node) :
    tree.node? location = some .directory ∧ ProperName name := by
  have hmem := mem_entries hnode (by simp)
  refine ⟨?_, h.proper _ hmem name (by simp)⟩
  simpa using (h.nested _ hmem).2

theorem WellFormed.dropLast (h : tree.WellFormed) (hnode : tree.node? location = some node) :
    tree.node? location.dropLast = some .directory := by
  obtain rfl | ⟨above, name, rfl⟩ := List.eq_nil_or_concat' location
  · simp
  · simpa using (h.above hnode).1

/-- Everything above what is found is a directory. -/
theorem WellFormed.directory_of_append (h : tree.WellFormed) (hne : row ≠ [])
    (hnode : tree.node? (top ++ row) = some node) : tree.node? top = some .directory := by
  induction row using List.reverseRecOn generalizing node with
  | nil => exact absurd rfl hne
  | append_singleton row name ih =>
    rw [← List.append_assoc] at hnode
    have habove := (h.above hnode).1
    by_cases hrow : row = []
    · simpa [hrow] using habove
    · exact ih hrow habove

/-- The names that lead from a directory to what is found are proper. -/
theorem WellFormed.proper_of_append (h : tree.WellFormed)
    (hnode : tree.node? (top ++ row) = some node) : ∀ name ∈ row, ProperName name := by
  intro name hname
  have hne : top ++ row ≠ [] := by
    have := List.ne_nil_of_mem hname
    simp [this]
  exact h.proper _ (mem_entries hnode hne) name (List.mem_append_right top hname)

/-- All directories on the way to a directory are there. -/
theorem WellFormed.directory_of_front (h : tree.WellFormed) {front : List String}
    (hfront : front <+: row) (hnode : tree.node? (top ++ row) = some .directory) :
    tree.node? (top ++ front) = some .directory := by
  obtain ⟨rest, rfl⟩ := hfront
  by_cases hrest : rest = []
  · simpa [hrest] using hnode
  · rw [← List.append_assoc] at hnode
    exact h.directory_of_append hrest hnode

/-! ## Walking -/

theorem walk_append_of_ok (h : tree.walk location xs = .ok other) (ys : List Component) :
    tree.walk location (xs ++ ys) = tree.walk other ys := by
  induction xs generalizing location with
  | nil =>
    cases h
    rfl
  | cons component xs ih =>
    rw [List.cons_append, walk]
    rw [walk] at h
    cases hnode : tree.node? location with
    | none => simp [hnode] at h
    | some node =>
      cases node with
      | file content => simp [hnode] at h
      | directory => exact ih (by simpa [hnode] using h)

theorem walk_append_of_error {e : FileError} (h : tree.walk location xs = .error e)
    (ys : List Component) : tree.walk location (xs ++ ys) = .error e := by
  induction xs generalizing location with
  | nil => cases h
  | cons component xs ih =>
    rw [List.cons_append, walk]
    rw [walk] at h
    cases hnode : tree.node? location with
    | none => simpa [hnode] using h
    | some node =>
      cases node with
      | file content => simpa [hnode] using h
      | directory => exact ih (by simpa [hnode] using h)

theorem walk_singleton (h : tree.node? location = some .directory) (component : Component) :
    tree.walk location [component] = .ok (follow location component) := by
  simp [walk, h]

/-- The last step is taken from a directory. -/
theorem walk_concat_eq_ok {component : Component}
    (h : tree.walk location (xs ++ [component]) = .ok other) :
    ∃ last, tree.walk location xs = .ok last ∧ tree.node? last = some .directory ∧
      other = follow last component := by
  cases hxs : tree.walk location xs with
  | error e =>
    rw [walk_append_of_error hxs] at h
    cases h
  | ok last =>
    rw [walk_append_of_ok hxs, walk] at h
    refine ⟨last, rfl, ?_⟩
    cases hnode : tree.node? last with
    | none => simp [hnode] at h
    | some node =>
      cases node with
      | file content => simp [hnode] at h
      | directory => exact ⟨rfl, by simpa [hnode, walk, eq_comm] using h⟩

/-- A way ends below a part of where it starts, by names that it takes. -/
theorem exists_names_of_walk (h : tree.walk location xs = .ok other) :
    ∃ front row, other = front ++ row ∧ front <+: location ∧
      ∀ name ∈ row, Component.name name ∈ xs := by
  induction xs using List.reverseRecOn generalizing other with
  | nil =>
    cases h
    exact ⟨location, [], by simp⟩
  | append_singleton xs component ih =>
    obtain ⟨last, hlast, -, rfl⟩ := walk_concat_eq_ok h
    obtain ⟨front, row, rfl, hfront, hrow⟩ := ih hlast
    have hall : ∀ name ∈ row, Component.name name ∈ xs ++ [component] :=
      fun name hname => List.mem_append_left _ (hrow name hname)
    cases component with
    | root => exact ⟨[], [], by simp [follow]⟩
    | here => exact ⟨front, row, rfl, hfront, hall⟩
    | up =>
      by_cases hnil : row = []
      · refine ⟨front.dropLast, [], by simp [follow, hnil], ?_, by simp⟩
        exact (List.dropLast_prefix front).trans hfront
      · have hlast : follow (front ++ row) .up = front ++ row.dropLast :=
          List.dropLast_append_of_ne_nil hnil
        refine ⟨front, row.dropLast, hlast, hfront, ?_⟩
        exact fun name hname => hall name (List.dropLast_subset row hname)
    | name last =>
      refine ⟨front, row ++ [last], by simp [follow], hfront, fun name hname => ?_⟩
      obtain hname | hname := List.mem_append.mp hname
      · exact hall name hname
      · simp [List.mem_singleton.mp hname]

/-- Steps that stay where they are do not matter in a directory. -/
theorem walk_append_here (h : tree.node? other = some .directory) (n : Nat) :
    tree.walk location (xs ++ List.replicate n .here) = .ok other ↔
      tree.walk location xs = .ok other := by
  induction n with
  | zero => simp
  | succ n ih =>
    rw [List.replicate_succ', ← List.append_assoc, ← ih]
    constructor
    · intro hwalk
      obtain ⟨last, hlast, -, rfl⟩ := walk_concat_eq_ok hwalk
      exact hlast
    · intro hwalk
      rw [walk_append_of_ok hwalk, walk_singleton h]
      rfl

/-- All directories of one tree are directories of the other. -/
structure Extends (tree tree' : FileTree) : Prop where
  working : tree'.workingDirectory = tree.workingDirectory
  directory : ∀ {location}, tree.node? location = some .directory →
    tree'.node? location = some .directory

theorem Extends.refl (tree : FileTree) : tree.Extends tree := ⟨rfl, id⟩

theorem Extends.trans {tree'' : FileTree} (h : tree.Extends tree') (h' : tree'.Extends tree'') :
    tree.Extends tree'' :=
  ⟨h'.working.trans h.working, fun hnode => h'.directory (h.directory hnode)⟩

/-- A way through directories stays open. -/
theorem Extends.walk (h : tree.Extends tree') (hwalk : tree.walk location xs = .ok other) :
    tree'.walk location xs = .ok other := by
  induction xs generalizing location with
  | nil => exact hwalk
  | cons component xs ih =>
    rw [FileTree.walk] at hwalk
    cases hnode : tree.node? location with
    | none => simp [hnode] at hwalk
    | some node =>
      cases node with
      | file content => simp [hnode] at hwalk
      | directory =>
        rw [FileTree.walk, h.directory hnode]
        exact ih (by simpa [hnode] using hwalk)

/-! ## Directories that paths enter -/

/-- Where the steps of a path start. -/
def origin (tree : FileTree) (path : Path) : Location :=
  if path.isAbsolute then [] else tree.workingDirectory

theorem find_of_text_ne (h : path.text ≠ "") : tree.find path =
    tree.walk (tree.origin path) (steps path ++
      if path.text.toList.getLast? = some '/' then [.here] else []) := by
  simp [find, locate, h, origin]

/-- The path leads to a directory. The empty path stands for the working directory. -/
structure Enters (tree : FileTree) (path : Path) (location : Location) : Prop where
  walk : tree.walk (tree.origin path) (steps path) = .ok location
  node : tree.node? location = some .directory

theorem enters_iff : tree.Enters path location ↔
    tree.walk (tree.origin path) (steps path) = .ok location ∧
      tree.node? location = some .directory :=
  ⟨fun h => ⟨h.1, h.2⟩, fun h => ⟨h.1, h.2⟩⟩

theorem Enters.unique (h : tree.Enters path location) (h' : tree.Enters path other) :
    location = other :=
  Except.ok.inj (h.walk.symm.trans h'.walk)

theorem Extends.origin (h : tree.Extends tree') (path : Path) :
    tree'.origin path = tree.origin path := by
  simp [FileTree.origin, h.working]

theorem Enters.mono (h : tree.Enters path location) (hextends : tree.Extends tree') :
    tree'.Enters path location where
  walk := by
    rw [hextends.origin]
    exact hextends.walk h.walk
  node := hextends.directory h.node

theorem Extends.find (h : tree.Extends tree') (hfind : tree.find path = .ok location) :
    tree'.find path = .ok location := by
  have htext : path.text ≠ "" := by
    intro hempty
    simp [FileTree.find, locate, hempty] at hfind
  rw [find_of_text_ne htext] at hfind ⊢
  rw [h.origin]
  exact h.walk hfind

theorem Enters.find (h : tree.Enters path location) (htext : path.text ≠ "") :
    tree.find path = .ok location := by
  rw [find_of_text_ne htext, walk_append_of_ok h.walk]
  split
  · exact walk_singleton h.node .here
  · rfl

/-- A path that is found to be a directory enters it. -/
theorem enters_of_find (h : tree.find path = .ok location)
    (hnode : tree.node? location = some .directory) :
    path.text ≠ "" ∧ tree.Enters path location := by
  have htext : path.text ≠ "" := by
    intro hempty
    simp [FileTree.find, locate, hempty] at h
  refine ⟨htext, ?_, hnode⟩
  rw [find_of_text_ne htext] at h
  split at h
  · exact (walk_append_here hnode 1).mp h
  · simpa using h

theorem isDirectory_iff :
    tree.isDirectory path = true ↔ path.text ≠ "" ∧ ∃ location, tree.Enters path location := by
  unfold isDirectory
  constructor
  · intro h
    cases hfind : tree.find path with
    | error e => simp [hfind] at h
    | ok location =>
      obtain ⟨htext, henters⟩ := enters_of_find hfind (by simpa [hfind] using h)
      exact ⟨htext, location, henters⟩
  · rintro ⟨htext, location, henters⟩
    simp [henters.find htext, henters.node]

/-- What follows the last component of a path does not matter. -/
theorem enters_core_iff : tree.Enters path.core location ↔ tree.Enters path location := by
  obtain ⟨n, hsteps⟩ := path.exists_steps_core
  have horigin : tree.origin path.core = tree.origin path := by
    simp [origin, path.isAbsolute_core]
  constructor
  · rintro ⟨hwalk, hnode⟩
    refine ⟨?_, hnode⟩
    rw [hsteps, walk_append_here hnode, ← horigin]
    exact hwalk
  · rintro ⟨hwalk, hnode⟩
    rw [hsteps, walk_append_here hnode, ← horigin] at hwalk
    exact ⟨hwalk, hnode⟩

theorem walk_join (h : tree.Enters directory location) (hname : ProperName name) :
    tree.walk (tree.origin (directory.join ⟨name⟩)) (steps (directory.join ⟨name⟩)) =
      .ok (location ++ [name]) := by
  have horigin : tree.origin (directory.join ⟨name⟩) = tree.origin directory := by
    simp [origin, Path.isAbsolute_join directory hname.noSlash]
  rw [horigin, Path.steps_join directory hname, walk_append_of_ok h.walk, walk_singleton h.node]
  rfl

theorem enters_of_walk_join (hname : ProperName name)
    (h : tree.walk (tree.origin (directory.join ⟨name⟩)) (steps (directory.join ⟨name⟩)) =
      .ok other) : ∃ location, tree.Enters directory location := by
  rw [Path.steps_join directory hname, origin, Path.isAbsolute_join directory hname.noSlash] at h
  obtain ⟨location, hwalk, hnode, -⟩ := walk_concat_eq_ok h
  exact ⟨location, hwalk, hnode⟩

/-- A name is found in the directory that is entered. -/
theorem Enters.find_join (h : tree.Enters directory location) (hname : ProperName name) :
    tree.find (directory.join ⟨name⟩) = .ok (location ++ [name]) := by
  rw [find_of_text_ne (Path.text_join_ne_empty directory hname),
    if_neg (Path.getLast?_join directory hname), List.append_nil, walk_join h hname]

theorem Enters.join (h : tree.Enters directory location) (hname : ProperName name)
    (hnode : tree.node? (location ++ [name]) = some .directory) :
    tree.Enters (directory.join ⟨name⟩) (location ++ [name]) :=
  ⟨walk_join h hname, hnode⟩

/-- A file that is found has a name in a directory that a path enters. -/
theorem exists_join_of_find (hwf : tree.WellFormed) {content : ByteArray}
    (h : tree.find path = .ok location) (hnode : tree.node? location = some (.file content)) :
    ∃ directory above name, path = directory.join ⟨name⟩ ∧ ProperName name ∧
      tree.Enters directory above ∧ location = above ++ [name] := by
  obtain ⟨directory, name, rfl, hslash⟩ := path.exists_join
  have hfile : tree.node? location ≠ some .directory := by simp [hnode]
  have htext : (directory.join ⟨name⟩).text ≠ "" := by
    intro hempty
    simp [FileTree.find, locate, hempty] at h
  have hlast : (directory.join ⟨name⟩).text.toList.getLast? ≠ some '/' := by
    intro hlast
    rw [find_of_text_ne htext, if_pos hlast] at h
    obtain ⟨last, -, hdirectory, rfl⟩ := walk_concat_eq_ok h
    exact hfile hdirectory
  have horigin : tree.origin (directory.join ⟨name⟩) = tree.origin directory := by
    simp [origin, Path.isAbsolute_join directory hslash]
  rw [find_of_text_ne htext, if_neg hlast, List.append_nil, Path.steps_join_of_noSlash _ hslash,
    horigin] at h
  -- neither a step that stays nor one that leads up ends at a file
  have hname : ProperName name := by
    refine ⟨?_, ?_, ?_, hslash⟩
    · rintro rfl
      obtain hempty | hslash := directory.join_empty
      · exact htext hempty
      · exact hlast hslash
    · rintro rfl
      obtain ⟨last, -, hdirectory, rfl⟩ := walk_concat_eq_ok h
      exact hfile hdirectory
    · rintro rfl
      obtain ⟨last, -, hdirectory, rfl⟩ := walk_concat_eq_ok h
      exact hfile (hwf.dropLast hdirectory)
  have hstep : [name].filterMap (fun piece => if piece = "." then some .here else
      Path.inner? piece) = [.name name] := by
    simp [hname.ne_here, Path.inner?_of_proper hname]
  rw [hstep] at h
  obtain ⟨above, hwalk, hdirectory, rfl⟩ := walk_concat_eq_ok h
  exact ⟨directory, above, name, rfl, hname, ⟨hwalk, hdirectory⟩, rfl⟩

end FileTree

end Jack
