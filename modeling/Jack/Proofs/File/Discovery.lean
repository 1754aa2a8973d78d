import Mathlib.Data.List.Lex
import Mathlib.Data.List.Sort
import Jack.Build
import Jack.Proofs.File.Tree

/-!
# The sources below a directory

A walk through a tree of files takes the names of each directory in their order and goes into the
directories among them.

1. A directory lists each of its names once (`nodup_namesIn`, `mem_namesIn`), so the order of the
   names is strict (`pairwise_namesIn`).
2. One level of the walk lists the sources of that level and what the level below lists
   (`mem_sourcesWithin_succ`), so the walk lists the files with the name of a source, at any depth
   (`mem_sourcesWithin`).
3. All that is listed under one name comes before all that is listed under a later one, because the
   paths part at these names (`components_of_mem_sourcesAt`): the whole list is sorted by
   components (`pairwise_sourcesWithin`), though not by the characters of the paths.
4. There is only one such list of the same sources, so the order in which a directory lists its
   names does not show in it.
-/

namespace Jack

/-! ## The order of paths -/

/-- The places of the kinds of components: root, dot, two dots, names. -/
def Component.rank : Component → Nat
  | root => 0
  | here => 1
  | up => 2
  | name _ => 3

/-- The order of components: by kind, and names by their characters. -/
def Component.Before (a b : Component) : Prop :=
  a.rank < b.rank ∨ ∃ m n, a = name m ∧ b = name n ∧ m < n

instance : Std.Asymm Component.Before where
  asymm a b hab hba := by
    obtain hab | ⟨m, n, rfl, rfl, hab⟩ := hab <;> obtain hba | ⟨n', m', hb, ha, hba⟩ := hba
    · exact Nat.lt_asymm hab hba
    · subst ha hb
      exact Nat.lt_irrefl _ hab
    · exact Nat.lt_irrefl _ hba
    · cases hb
      cases ha
      exact String.lt_asymm hab hba

/-- The order of paths: at the first component where they differ, as these components. -/
def Path.Before (a b : Path) : Prop := List.Lex Component.Before a.components b.components

instance : Std.Asymm Path.Before where
  asymm _ _ hab hba := Std.Asymm.asymm (r := List.Lex Component.Before) _ _ hab hba

/-- Paths that part below a directory are ordered by the names where they part. -/
theorem Path.before_of_components {a b : Path} {front xs ys : List Component} {m n : String}
    (ha : a.components = front ++ .name m :: xs) (hb : b.components = front ++ .name n :: ys)
    (h : m < n) : a.Before b := by
  rw [Before, ha, hb]
  exact List.Lex.append_left _ (.rel (.inr ⟨m, n, rfl, rfl, h⟩)) front

/-- The name of a source has a stem and the extension of sources. -/
theorem isSourceName_iff {name : String} :
    isSourceName name = true ↔ ∃ stem, stem ≠ "" ∧ name = stem ++ ".jack" := by
  have hsplit : isSourceName name = true ↔ ∃ stem, Path.splitName name = (stem, some "jack") := by
    rw [isSourceName, beq_iff_eq]
    exact ⟨fun h => ⟨_, Prod.ext rfl h⟩, fun ⟨stem, h⟩ => congrArg Prod.snd h⟩
  simp only [hsplit, Path.splitName_eq_iff, String.append_assoc]
  constructor
  · rintro ⟨stem, hne, -, hname⟩
    exact ⟨stem, hne, hname⟩
  · rintro ⟨stem, hne, hname⟩
    exact ⟨stem, hne, by decide, hname⟩

namespace FileTree

variable {tree tree' : FileTree} {directory top : Location} {name : String} {path source : Path}
  {row : List String} {node : Node}

/-! ## The names in a directory -/

theorem mem_namesIn (h : tree.WellFormed) :
    name ∈ tree.namesIn directory ↔ ∃ node, tree.node? (directory ++ [name]) = some node := by
  unfold namesIn
  rw [List.mem_filterMap]
  constructor
  · rintro ⟨⟨location, node⟩, hmem, hname⟩
    obtain ⟨hdirectory, hname⟩ := Option.ite_none_right_eq_some.mp hname
    have hlocation : location = directory ++ [name] := by
      rw [← hdirectory, List.dropLast_append_getLast? name hname]
    exact ⟨node, hlocation ▸ h.node?_of_mem hmem⟩
  · rintro ⟨node, hnode⟩
    exact ⟨_, mem_entries hnode (by simp), by simp⟩

theorem nodup_namesIn (h : tree.WellFormed) (directory : Location) :
    (tree.namesIn directory).Nodup := by
  have hkeys : (tree.namesIn directory).map (fun name => directory ++ [name]) =
      (tree.entries.map Prod.fst).filter
        fun location => location.dropLast = directory ∧ location ≠ [] := by
    unfold namesIn
    induction tree.entries with
    | nil => rfl
    | cons entry entries ih =>
      obtain ⟨location, node⟩ := entry
      obtain rfl | ⟨above, name, rfl⟩ := List.eq_nil_or_concat' location
      · simpa using ih
      · by_cases habove : above = directory
        · simpa [habove] using ih
        · simpa [habove] using ih
  exact .of_map _ (hkeys ▸ h.nodup.filter _)

theorem nameLE_iff {a b : String} : nameLE a b = true ↔ a ≤ b := by
  rw [nameLE, Bool.not_eq_true', decide_eq_false_iff_not, String.not_lt]

theorem nameLE_trans (a b c : String) (hab : nameLE a b = true) (hbc : nameLE b c = true) :
    nameLE a c = true := by
  rw [nameLE_iff] at hab hbc ⊢
  exact String.le_trans hab hbc

theorem nameLE_total (a b : String) : (nameLE a b || nameLE b a) = true := by
  rw [Bool.or_eq_true, nameLE_iff, nameLE_iff]
  exact String.le_total a b

/-- The names of a directory in their order, which is strict. -/
theorem pairwise_namesIn (h : tree.WellFormed) (directory : Location) :
    ((tree.namesIn directory).mergeSort nameLE).Pairwise (· < ·) := by
  have hsorted := List.pairwise_mergeSort nameLE_trans nameLE_total (tree.namesIn directory)
  have hnodup := (List.mergeSort_perm (tree.namesIn directory) nameLE).nodup_iff.mpr
    (nodup_namesIn h directory)
  refine (hsorted.and hnodup).imp fun {a b} ⟨hle, hne⟩ => ?_
  rw [nameLE_iff] at hle
  exact String.not_le.mp fun hge => hne (String.le_antisymm hle hge)

/-! ## Walking through the directories -/

/-- What a name contributes: itself, or what is listed below it. -/
theorem mem_sourcesAt {below : Location → Path → List Path} :
    source ∈ tree.sourcesAt below directory path name ↔
      (∃ content, tree.node? (directory ++ [name]) = some (.file content) ∧
        isSourceName name = true ∧ source = path.join ⟨name⟩) ∨
      tree.node? (directory ++ [name]) = some .directory ∧
        source ∈ below (directory ++ [name]) (path.join ⟨name⟩) := by
  unfold sourcesAt
  cases hnode : tree.node? (directory ++ [name]) with
  | none => simp
  | some node => cases node <;> simp

/-- What one level lists: the sources in the directory and what is listed below it. -/
theorem mem_sourcesWithin_succ (h : tree.WellFormed) {bound : Nat} :
    source ∈ tree.sourcesWithin (bound + 1) directory path ↔ ∃ name,
      source ∈ tree.sourcesAt (tree.sourcesWithin bound) directory path name := by
  simp only [sourcesWithin, List.mem_flatMap, List.mem_mergeSort, mem_namesIn h, mem_sourcesAt]
  refine exists_congr fun name => and_iff_right_of_imp ?_
  rintro (⟨content, hnode, -⟩ | ⟨hnode, -⟩)
  · exact ⟨_, hnode⟩
  · exact ⟨_, hnode⟩

/-- The walk lists the files with the name of a source, as deep as the bound allows. -/
theorem mem_sourcesWithin (h : tree.WellFormed) {bound : Nat} :
    source ∈ tree.sourcesWithin bound directory path ↔ ∃ row name content,
      row.length < bound ∧ isSourceName name = true ∧
      tree.node? (directory ++ (row ++ [name])) = some (.file content) ∧
      source = path.descend (row ++ [name]) := by
  induction bound generalizing directory path with
  | zero => simp [sourcesWithin]
  | succ bound ih =>
    simp only [mem_sourcesWithin_succ h, mem_sourcesAt]
    constructor
    · rintro ⟨name, ⟨content, hnode, hname, rfl⟩ | ⟨-, hbelow⟩⟩
      · exact ⟨[], name, content, Nat.succ_pos bound, hname, hnode, rfl⟩
      · obtain ⟨row, last, content, hlength, hlast, hnode, rfl⟩ := ih.mp hbelow
        refine ⟨name :: row, last, content, Nat.succ_lt_succ hlength, hlast, ?_, rfl⟩
        simpa using hnode
    · rintro ⟨row, last, content, hlength, hlast, hnode, rfl⟩
      cases row with
      | nil => exact ⟨last, .inl ⟨content, hnode, hlast, rfl⟩⟩
      | cons name row =>
        have hbelow : tree.node? (directory ++ [name] ++ (row ++ [last])) =
            some (.file content) := by simpa using hnode
        refine ⟨name, .inr ⟨h.directory_of_append (by simp) hbelow, ih.mpr ?_⟩⟩
        exact ⟨row, last, content, Nat.lt_of_succ_lt_succ hlength, hlast, hbelow, rfl⟩

/-- What is listed under a name has this name after the components of the directory. -/
theorem components_of_mem_sourcesAt (h : tree.WellFormed) {bound : Nat}
    (hsource : source ∈ tree.sourcesAt (tree.sourcesWithin bound) directory path name) :
    ∃ names, source.components = path.components ++ .name name :: names := by
  rw [mem_sourcesAt] at hsource
  obtain ⟨content, hnode, -, rfl⟩ | ⟨hnode, hsource⟩ := hsource
  · exact ⟨[], Path.components_join path (h.above hnode).2⟩
  · obtain ⟨row, last, content, -, -, hbelow, rfl⟩ := (mem_sourcesWithin h).mp hsource
    refine ⟨(row ++ [last]).map .name, ?_⟩
    rw [Path.components_descend _ (h.proper_of_append hbelow),
      Path.components_join path (h.above hnode).2, List.append_assoc, List.singleton_append]

theorem pairwise_sourcesWithin (h : tree.WellFormed) (bound : Nat) (directory : Location)
    (path : Path) : (tree.sourcesWithin bound directory path).Pairwise Path.Before := by
  induction bound generalizing directory path with
  | zero => exact .nil
  | succ bound ih =>
    rw [sourcesWithin, List.pairwise_flatMap]
    constructor
    · intro name hname
      unfold sourcesAt
      split
      · exact ih _ _
      · split
        · exact List.pairwise_singleton _ _
        · exact .nil
      · exact .nil
    · refine (pairwise_namesIn h directory).imp fun {m n} hlt a ha b hb => ?_
      obtain ⟨xs, hxs⟩ := components_of_mem_sourcesAt h ha
      obtain ⟨ys, hys⟩ := components_of_mem_sourcesAt h hb
      exact Path.before_of_components hxs hys hlt

/-! ## Discovery -/

theorem length_le_depth (hnode : tree.node? top = some node) : top.length ≤ tree.depth := by
  have hfold : ∀ (entries : List (Location × Node)) (start : Nat),
      start ≤ entries.foldl (fun depth entry => max depth entry.1.length) start ∧
      ∀ entry ∈ entries,
        entry.1.length ≤ entries.foldl (fun depth entry => max depth entry.1.length) start := by
    intro entries
    induction entries with
    | nil => simp
    | cons entry entries ih =>
      intro start
      obtain ⟨hstart, hmem⟩ := ih (max start entry.1.length)
      simp only [List.foldl_cons, List.mem_cons, forall_eq_or_imp]
      exact ⟨by omega, by omega, hmem⟩
  by_cases hne : top = []
  · simp [hne]
  · exact (hfold tree.entries 0).2 _ (mem_entries hnode hne)

theorem discover_of_directory (hfind : tree.find path = .ok top)
    (htop : tree.node? top = some .directory) :
    tree.discover path = tree.sourcesWithin tree.depth top path := by
  simp [discover, hfind, htop]

/-- The sources below a directory are the files in it, at any depth, with the name of a source. -/
theorem mem_discover (h : tree.WellFormed) (hfind : tree.find path = .ok top)
    (htop : tree.node? top = some .directory) :
    source ∈ tree.discover path ↔ ∃ row stem content, stem ≠ "" ∧
      tree.node? (top ++ (row ++ [stem ++ ".jack"])) = some (.file content) ∧
      source = path.descend (row ++ [stem ++ ".jack"]) := by
  rw [discover_of_directory hfind htop, mem_sourcesWithin h]
  constructor
  · rintro ⟨row, name, content, -, hname, hnode, rfl⟩
    obtain ⟨stem, hstem, rfl⟩ := isSourceName_iff.mp hname
    exact ⟨row, stem, content, hstem, hnode, rfl⟩
  · rintro ⟨row, stem, content, hstem, hnode, rfl⟩
    have hdepth := length_le_depth hnode
    simp only [List.length_append, List.length_singleton] at hdepth
    exact ⟨row, _, content, by omega, isSourceName_iff.mpr ⟨stem, hstem, rfl⟩, hnode, rfl⟩

theorem pairwise_discover (h : tree.WellFormed) (path : Path) :
    (tree.discover path).Pairwise Path.Before := by
  unfold discover
  split
  · split
    · exact pairwise_sourcesWithin h _ _ _
    · exact List.pairwise_singleton _ _
  · exact List.pairwise_singleton _ _

/-- A row of names leads from a directory to the directory below it. -/
theorem Enters.descend (h : tree.Enters path top) (hwf : tree.WellFormed)
    (hnode : tree.node? (top ++ row) = some .directory) :
    tree.Enters (path.descend row) (top ++ row) := by
  induction row using List.reverseRecOn with
  | nil => simpa [Path.descend] using h
  | append_singleton row name ih =>
    rw [← List.append_assoc] at hnode ⊢
    obtain ⟨habove, hname⟩ := hwf.above hnode
    rw [Path.descend_concat]
    exact (ih habove).join hname hnode

theorem Enters.find_descend (h : tree.Enters path top) (hwf : tree.WellFormed)
    (hnode : tree.node? (top ++ (row ++ [name])) = some node) :
    tree.find (path.descend (row ++ [name])) = .ok (top ++ (row ++ [name])) := by
  rw [← List.append_assoc] at hnode ⊢
  obtain ⟨habove, hname⟩ := hwf.above hnode
  rw [Path.descend_concat]
  exact (h.descend hwf habove).find_join hname

/-! ## Other listings of the same tree -/

/-- The entries in another order are the same tree. -/
theorem node?_of_perm (h : tree.WellFormed) (hperm : tree'.entries.Perm tree.entries)
    (location : Location) : tree'.node? location = tree.node? location := by
  by_cases hne : location = []
  · simp [hne]
  · have hnodup : (tree'.entries.map Prod.fst).Nodup := (hperm.map _).nodup_iff.mpr h.nodup
    refine Option.ext fun node => ⟨fun hnode => ?_, fun hnode => ?_⟩
    · exact h.node?_of_mem (hperm.mem_iff.mp (mem_entries hnode hne))
    · exact node?_of_mem hnodup hne (hperm.mem_iff.mpr (mem_entries hnode hne))

theorem WellFormed.of_perm (h : tree.WellFormed) (hperm : tree'.entries.Perm tree.entries)
    (hworking : tree'.workingDirectory = tree.workingDirectory) : tree'.WellFormed where
  nodup := (hperm.map _).nodup_iff.mpr h.nodup
  proper entry hentry := h.proper entry (hperm.mem_iff.mp hentry)
  nested entry hentry := by
    rw [node?_of_perm h hperm]
    exact h.nested entry (hperm.mem_iff.mp hentry)
  working := by
    rw [hworking, node?_of_perm h hperm]
    exact h.working

/-- **Discovery lists every source once, in the order of paths.** Below a path that leads to a
directory it lists exactly the files, at any depth, whose name is a stem with the extension of
sources; each listed path leads to its file. The list is strictly sorted by the components of the
paths, so nothing is listed twice, and a tree that holds the same entries in any other order gives
the same list. -/
theorem discovery_is_complete_and_sorted (h : tree.WellFormed) (hfind : tree.find path = .ok top)
    (htop : tree.node? top = some .directory) :
    (∀ source, source ∈ tree.discover path ↔ ∃ row stem content, stem ≠ "" ∧
      tree.node? (top ++ (row ++ [stem ++ ".jack"])) = some (.file content) ∧
      tree.find source = .ok (top ++ (row ++ [stem ++ ".jack"])) ∧
      source = path.descend (row ++ [stem ++ ".jack"])) ∧
    (tree.discover path).Nodup ∧
    (tree.discover path).Pairwise Path.Before ∧
    ∀ tree' : FileTree, tree'.entries.Perm tree.entries →
      tree'.workingDirectory = tree.workingDirectory →
      tree'.discover path = tree.discover path := by
  have hsorted := pairwise_discover h path
  refine ⟨fun source => ?_, hsorted.imp fun hbefore => ?_, hsorted, fun tree' hperm hworking => ?_⟩
  · rw [mem_discover h hfind htop]
    have henters := (enters_of_find hfind htop).2
    constructor
    · rintro ⟨row, stem, content, hstem, hnode, rfl⟩
      exact ⟨row, stem, content, hstem, hnode, henters.find_descend h hnode, rfl⟩
    · rintro ⟨row, stem, content, hstem, hnode, -, rfl⟩
      exact ⟨row, stem, content, hstem, hnode, rfl⟩
  · rintro rfl
    exact Std.Irrefl.irrefl (r := Path.Before) _ hbefore
  · have hwf' := h.of_perm hperm hworking
    have hsame := node?_of_perm h hperm
    have hextends : tree.Extends tree' := ⟨hworking, fun hnode => (hsame _).trans hnode⟩
    have hfind' : tree'.find path = .ok top := hextends.find hfind
    refine (pairwise_discover hwf' path).eq_of_mem_iff hsorted fun source => ?_
    rw [mem_discover hwf' hfind' ((hsame top).trans htop), mem_discover h hfind htop]
    simp only [hsame]

/-- A file and a directory of nearly the same name, a directory with the name of a source, and a
file that has no stem. -/
def crowdedTree : FileTree where
  entries := [(["p"], .directory), (["p", ".jack"], .file .empty), (["p", "a"], .directory),
    (["p", "a", "x.jack"], .file .empty), (["p", "a.jack"], .file .empty),
    (["p", "x.jack"], .directory), (["p", "x.jack", "b.jack"], .file .empty)]

/-- By their characters `p/a.jack` would come before `p/a/x.jack`. -/
theorem discover_crowdedTree :
    crowdedTree.discover ⟨"p"⟩ = [⟨"p/a/x.jack"⟩, ⟨"p/a.jack"⟩, ⟨"p/x.jack/b.jack"⟩] ∧
    (crowdedTree.discover ⟨"p"⟩).Pairwise Path.Before ∧
    FileTree.discover ⟨crowdedTree.entries.reverse, []⟩ ⟨"p"⟩ = crowdedTree.discover ⟨"p"⟩ := by
  have hfind : crowdedTree.find ⟨"p"⟩ = .ok ["p"] := by decide +kernel
  have htop : crowdedTree.node? ["p"] = some .directory := by decide +kernel
  have h := discovery_is_complete_and_sorted (by decide +kernel) hfind htop
  refine ⟨?_, h.2.2.1, h.2.2.2 _ (List.reverse_perm _) rfl⟩
  have hnames : crowdedTree.namesIn ["p"] = [".jack", "a", "a.jack", "x.jack"] := by
    decide +kernel
  have hdepth : crowdedTree.depth = 3 := by decide +kernel
  rw [discover_of_directory hfind htop, hdepth, sourcesWithin, hnames,
    List.mergeSort_of_pairwise (by decide +kernel)]
  decide +kernel

end FileTree

end Jack
