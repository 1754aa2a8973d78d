import Jack.Proofs.File.Tree

/-!
# Making directories

To make a directory is to make those that are missing above it and then the directory itself.
Whether it succeeds or not, nothing that was there is touched: the tree has only grown, by
directories where nothing was (`Grown`, `grown_of_ok`, `grown_of_error`).

When it succeeds, so does making any row of directories below, as long as no file stands in the way
(`makeDirectories_descend`). This rests on two facts:

1. a way that is open in the grown tree breaks off in the tree before only where something is
   missing (`Grown.walk`), so the directories above are made;
2. the parent of a path is the path of its directory without what follows the last component, and
   making that directory comes to the same (`makeDirectories_core`).
-/

namespace Jack

namespace FileTree

variable {tree tree' tree'' : FileTree} {location other : Location} {path : Path}
  {paths paths' : List Path} {components : List Component}

/-! ## Growing -/

/-- Directories have been made at places that were free, where some of the paths lead. Everything
else is as it was. -/
structure Grown (paths : List Path) (tree tree' : FileTree) : Prop where
  working : tree'.workingDirectory = tree.workingDirectory
  changed : ∀ location, tree'.node? location ≠ tree.node? location →
    tree.node? location = none ∧ tree'.node? location = some .directory ∧
      ∃ path ∈ paths, tree'.Enters path location

namespace Grown

theorem refl (paths : List Path) (tree : FileTree) : tree.Grown paths tree :=
  ⟨rfl, fun _ h => absurd rfl h⟩

/-- Nothing is lost. -/
theorem node {node : Node} (h : tree.Grown paths tree')
    (hnode : tree.node? location = some node) : tree'.node? location = some node := by
  by_contra hne
  have hnone := (h.changed location (by rwa [hnode])).1
  simp [hnone] at hnode

theorem toExtends (h : tree.Grown paths tree') : tree.Extends tree' := ⟨h.working, h.node⟩

theorem mono (h : tree.Grown paths tree') (hsubset : paths ⊆ paths') : tree.Grown paths' tree' where
  working := h.working
  changed location hne := by
    obtain ⟨hnone, hdirectory, path, hpath, henters⟩ := h.changed location hne
    exact ⟨hnone, hdirectory, path, hsubset hpath, henters⟩

theorem trans (h : tree.Grown paths tree') (h' : tree'.Grown paths tree'') :
    tree.Grown paths tree'' where
  working := h'.working.trans h.working
  changed location hne := by
    by_cases hsame : tree'.node? location = tree.node? location
    · rw [← hsame] at hne ⊢
      exact h'.changed location hne
    · obtain ⟨hnone, hdirectory, path, hpath, henters⟩ := h.changed location hsame
      exact ⟨hnone, h'.node hdirectory, path, hpath, henters.mono h'.toExtends⟩

/-- A way that is open afterwards was open before, or broke off where something was missing. -/
theorem walk (h : tree.Grown paths tree') (hwalk : tree'.walk location components = .ok other) :
    tree.walk location components = .ok other ∨
      tree.walk location components = .error .notFound := by
  induction components generalizing location with
  | nil => exact .inl hwalk
  | cons component rest ih =>
    rw [FileTree.walk] at hwalk ⊢
    cases hnode : tree.node? location with
    | none => exact .inr rfl
    | some node =>
      rw [h.node hnode] at hwalk
      cases node with
      | file content => cases hwalk
      | directory => exact ih hwalk

/-- A new directory has a name that the path takes. -/
theorem name_mem_steps {name : String} (h : tree.Grown path.ancestors tree') (hwf : tree.WellFormed)
    (hnew : tree'.node? (location ++ [name]) ≠ tree.node? (location ++ [name])) :
    Component.name name ∈ steps path := by
  obtain ⟨hnone, -, ancestor, hancestor, henters⟩ := h.changed _ hnew
  obtain ⟨front, row, heq, hfront, hrow⟩ := exists_names_of_walk henters.walk
  have hsteps := Path.steps_subset_of_mem_ancestors hancestor
  obtain rfl | ⟨above, last, rfl⟩ := List.eq_nil_or_concat' row
  · -- where the way starts, and above, everything is there
    have horigin : tree.node? (tree'.origin ancestor) = some .directory := by
      rw [origin, h.working]
      split
      · exact node?_nil tree
      · exact hwf.working
    have hthere : tree.node? ([] ++ front) = some .directory :=
      hwf.directory_of_front hfront horigin
    rw [List.nil_append, ← List.append_nil front, ← heq, hnone] at hthere
    cases hthere
  · rw [← List.append_assoc] at heq
    obtain ⟨-, hname⟩ := List.append_inj' heq rfl
    exact hsteps (hrow name (by simp [List.singleton_inj.mp hname]))

end Grown

/-- A directory where nothing was. -/
theorem grown_put (henters : tree.walk (tree.origin path) (steps path) = .ok location)
    (hnone : tree.node? location = none) : tree.Grown [path] (tree.put location .directory) := by
  have hne : location ≠ [] := by
    rintro rfl
    simp at hnone
  have hextends : tree.Extends (tree.put location .directory) := by
    refine ⟨rfl, fun {other} hother => ?_⟩
    rw [node?_put tree hne]
    split
    · rfl
    · exact hother
  refine ⟨rfl, fun other hchanged => ?_⟩
  rw [node?_put tree hne] at hchanged ⊢
  by_cases heq : location = other
  · subst heq
    refine ⟨hnone, if_pos rfl, path, List.mem_singleton_self path, hextends.walk henters, ?_⟩
    rw [node?_put tree hne, if_pos rfl]
  · rw [if_neg heq] at hchanged
    exact absurd rfl hchanged

/-- The tree with a directory at a location, unless something is there. -/
def supply (tree : FileTree) (location : Location) : FileTree :=
  if tree.node? location = none then tree.put location .directory else tree

/-- The tree with a row of directories below a location, as far as nothing is there. -/
def supplyRow (tree : FileTree) (location : Location) : List String → FileTree
  | [] => tree
  | name :: row => (tree.supply (location ++ [name])).supplyRow (location ++ [name]) row

theorem node?_supply (tree : FileTree) (location other : Location) :
    (tree.supply location).node? other =
      if location = other ∧ tree.node? location = none then some .directory
      else tree.node? other := by
  unfold supply
  by_cases hnone : tree.node? location = none
  · have hne : location ≠ [] := by
      rintro rfl
      simp at hnone
    simp [hnone, node?_put tree hne]
  · simp [hnone]

theorem extends_supply (tree : FileTree) (location : Location) :
    tree.Extends (tree.supply location) where
  working := by
    unfold supply
    split <;> rfl
  directory {other} h := by
    rw [node?_supply]
    split
    · rfl
    · exact h

theorem extends_supplyRow (tree : FileTree) (location : Location) (row : List String) :
    tree.Extends (tree.supplyRow location row) := by
  induction row generalizing tree location with
  | nil => exact .refl tree
  | cons name row ih =>
    have hsupply := extends_supply tree (location ++ [name])
    exact hsupply.trans (ih (tree.supply (location ++ [name])) (location ++ [name]))

/-- What is new in a row is a directory where nothing was, a part of the row. -/
theorem supplyRow_changed {row : List String}
    (h : (tree.supplyRow location row).node? other ≠ tree.node? other) :
    tree.node? other = none ∧ (tree.supplyRow location row).node? other = some .directory ∧
      ∃ front, front <+: row ∧ front ≠ [] ∧ other = location ++ front := by
  induction row generalizing tree location with
  | nil => exact absurd rfl h
  | cons name row ih =>
    rw [supplyRow] at h ⊢
    by_cases hsame : (tree.supply (location ++ [name])).node? other = tree.node? other
    · rw [← hsame] at h ⊢
      obtain ⟨hnone, hdirectory, front, hfront, -, rfl⟩ := ih h
      exact ⟨hnone, hdirectory, name :: front, by simpa using hfront, by simp, by simp⟩
    · rw [node?_supply] at hsame
      by_cases hnew : location ++ [name] = other ∧ tree.node? (location ++ [name]) = none
      · obtain ⟨rfl, hnone⟩ := hnew
        have hdirectory : (tree.supply (location ++ [name])).node? (location ++ [name]) =
            some .directory := by simp [node?_supply, hnone]
        exact ⟨hnone, (extends_supplyRow _ _ _).directory hdirectory, [name], by simp, by simp, rfl⟩
      · rw [if_neg hnew] at hsame
        exact absurd rfl hsame

theorem supplyRow_of_directories {row : List String}
    (h : ∀ front, front <+: row → tree.node? (location ++ front) = some .directory) :
    tree.supplyRow location row = tree := by
  induction row generalizing location with
  | nil => rfl
  | cons name row ih =>
    have hfirst : tree.supply (location ++ [name]) = tree := by
      rw [supply, h [name] (by simp)]
      rfl
    rw [supplyRow, hfirst]
    refine ih fun front hfront => ?_
    simpa using h (name :: front) (by simpa using hfront)

end FileTree

namespace Files

variable {tree tree' : FileTree}

/-- The tree that an operation leaves, whether it fails or not. -/
def after {α : Type} (operation : Files α) (tree : FileTree) : FileTree :=
  match operation tree with
  | .ok _ tree => tree
  | .error _ tree => tree

theorem after_of_ok {α : Type} {operation : Files α} {a : α} (h : operation tree = .ok a tree') :
    after operation tree = tree' := by
  simp [after, h]

theorem after_of_error {α : Type} {operation : Files α} {e : FileError}
    (h : operation tree = .error e tree') : after operation tree = tree' := by
  simp [after, h]

theorem after_bind {α β : Type} (first : Files α) (next : α → Files β) (tree : FileTree) :
    after (first >>= next) tree = after first tree ∨
      ∃ a, after (first >>= next) tree = after (next a) (after first tree) := by
  unfold after
  simp only [bind, EStateM.bind]
  cases first tree with
  | ok a tree' => exact .inr ⟨a, rfl⟩
  | error e tree' => exact .inl rfl

theorem exists_of_bind_ok {ε σ : Type} {first next : EStateM ε σ Unit} {start last : σ}
    (h : (do first; next : EStateM ε σ Unit) start = .ok () last) :
    ∃ between, first start = .ok () between ∧ next between = .ok () last := by
  simp only [bind, EStateM.bind] at h
  cases hfirst : first start with
  | ok a between => exact ⟨between, rfl, by simpa [hfirst] using h⟩
  | error e between => simp [hfirst] at h

end Files

namespace Disk

open FileTree (steps)
open Files (after after_of_ok after_of_error after_bind exists_of_bind_ok)

variable {disk : Disk} {tree tree' : FileTree} {location : Location} {name : String}
  {path path' directory : Path} {paths : List Path} {row : List String}

/-! ## One directory -/

theorem makeDirectory_of_error {e : FileError} (htext : path.text ≠ "")
    (h : tree.walk (tree.origin path) (steps path) = .error e) :
    disk.makeDirectory path tree = .error e tree := by
  rw [FileTree.origin] at h
  simp [makeDirectory, FileTree.locate, htext, h]

/-- It fails and leaves the tree as it was, or makes the directory where nothing was. -/
theorem makeDirectory_cases (disk : Disk) (path : Path) (tree : FileTree) :
    (∃ e, disk.makeDirectory path tree = .error e tree) ∨
    ∃ location, tree.walk (tree.origin path) (steps path) = .ok location ∧
      tree.node? location = none ∧
      disk.makeDirectory path tree = .ok () (tree.put location .directory) := by
  by_cases htext : path.text = ""
  · exact .inl ⟨.notFound, by simp [makeDirectory, FileTree.locate, htext]⟩
  · cases hwalk : tree.walk (tree.origin path) (steps path) with
    | error e => exact .inl ⟨e, makeDirectory_of_error htext hwalk⟩
    | ok location =>
      have hfound : tree.locate path (steps path) = .ok location := by
        rw [FileTree.locate, if_neg htext]
        exact hwalk
      unfold makeDirectory
      simp only [hfound]
      split
      · exact .inl ⟨.alreadyExists, rfl⟩
      · split
        · exact .inl ⟨_, rfl⟩
        · exact .inr ⟨location, rfl, ‹_›, rfl⟩

/-- A directory that is there is left alone; otherwise it is made, or that fails. -/
theorem ensureDirectory_eq (disk : Disk) (path : Path) (tree : FileTree) :
    disk.ensureDirectory path tree =
      if tree.isDirectory path then .ok () tree else disk.makeDirectory path tree := by
  unfold ensureDirectory
  obtain ⟨e, herror⟩ | ⟨location, hwalk, hnone, hok⟩ := makeDirectory_cases disk path tree
  · simp [herror]
  · have hdirectory : ¬ tree.isDirectory path = true := by
      rw [FileTree.isDirectory_iff]
      rintro ⟨-, other, henters⟩
      rw [henters.walk] at hwalk
      cases hwalk
      simp [henters.node] at hnone
    simp [hok, hdirectory]

theorem ensureDirectory_of_enters (disk : Disk) (h : tree.Enters path location)
    (htext : path.text ≠ "") : disk.ensureDirectory path tree = .ok () tree := by
  rw [ensureDirectory_eq, if_pos (FileTree.isDirectory_iff.mpr ⟨htext, location, h⟩)]

theorem grown_ensureDirectory (disk : Disk) (path : Path) (tree : FileTree) :
    tree.Grown [path] (after (disk.ensureDirectory path) tree) := by
  unfold after
  rw [ensureDirectory_eq]
  by_cases hdirectory : tree.isDirectory path = true
  · rw [if_pos hdirectory]
    exact .refl _ _
  · rw [if_neg hdirectory]
    obtain ⟨e, herror⟩ | ⟨location, hwalk, hnone, hok⟩ := makeDirectory_cases disk path tree
    · rw [herror]
      exact .refl _ _
    · rw [hok]
      exact FileTree.grown_put hwalk hnone

/-! ## A directory and those above it -/

theorem ensureChain_of_ne (htext : path.text ≠ "")
    (h : disk.ensureDirectory path tree ≠ .error .notFound tree) :
    disk.ensureChain (path :: paths) tree = disk.ensureDirectory path tree := by
  have hleft : ∀ e tree', disk.ensureDirectory path tree = .error e tree' → tree' = tree := by
    intro e tree' herror
    rw [ensureDirectory_eq] at herror
    obtain ⟨e', hmake⟩ | ⟨location, -, -, hmake⟩ := makeDirectory_cases disk path tree
    · rw [hmake] at herror
      split at herror <;> cases herror
      rfl
    · rw [hmake] at herror
      split at herror <;> cases herror
  cases hensure : disk.ensureDirectory path tree with
  | ok a tree' => simp [ensureChain, htext, hensure]
  | error e tree' =>
    obtain rfl := hleft e tree' hensure
    cases e with
    | notFound => exact absurd hensure h
    | alreadyExists | notDirectory | isDirectory | notText | permissionDenied | noSpace
    | deviceFailure => simp [ensureChain, htext, hensure]

/-- Where something above is missing, it is made first. -/
theorem ensureChain_of_notFound (htext : path.text ≠ "")
    (h : disk.ensureDirectory path tree = .error .notFound tree) :
    disk.ensureChain (path :: paths) tree =
      (do disk.ensureChain paths; disk.ensureDirectory path : Files Unit) tree := by
  simp [ensureChain, htext, h]

theorem grown_ensureChain (disk : Disk) (paths : List Path) (tree : FileTree) :
    tree.Grown paths (after (disk.ensureChain paths) tree) := by
  induction paths generalizing tree with
  | nil => exact .refl _ _
  | cons path paths ih =>
    have hensure : ∀ tree : FileTree,
        tree.Grown (path :: paths) (after (disk.ensureDirectory path) tree) :=
      fun tree => (grown_ensureDirectory disk path tree).mono (by simp)
    have hchain : ∀ tree : FileTree,
        tree.Grown (path :: paths) (after (disk.ensureChain paths) tree) :=
      fun tree => (ih tree).mono (List.subset_cons_self _ _)
    have hfirst := hensure tree
    by_cases htext : path.text = ""
    · simpa [after, ensureChain, htext] using .refl _ _
    · by_cases hmissing : disk.ensureDirectory path tree = .error .notFound tree
      · have hafter : after (disk.ensureChain (path :: paths)) tree =
            after (do disk.ensureChain paths; disk.ensureDirectory path) tree := by
          unfold after
          rw [ensureChain_of_notFound htext hmissing]
        obtain hbind | ⟨-, hbind⟩ := after_bind (disk.ensureChain paths)
          (fun _ => disk.ensureDirectory path) tree
        · rw [hafter, hbind]
          exact hchain tree
        · rw [hafter, hbind]
          exact (hchain tree).trans (hensure _)
      · have hafter : after (disk.ensureChain (path :: paths)) tree =
            after (disk.ensureDirectory path) tree := by
          unfold after
          rw [ensureChain_of_ne htext hmissing]
        rw [hafter]
        exact hfirst

/-- Making a directory only lets the tree grow, by directories that lead there. -/
theorem grown_of_ok (h : disk.makeDirectories path tree = .ok () tree') :
    tree.Grown path.ancestors tree' :=
  after_of_ok h ▸ grown_ensureChain disk path.ancestors tree

/-- The same is so when it fails. -/
theorem grown_of_error {e : FileError} (h : disk.makeDirectories path tree = .error e tree') :
    tree.Grown path.ancestors tree' :=
  after_of_error h ▸ grown_ensureChain disk path.ancestors tree

/-! ## Directories that can be made -/

theorem ancestors_of_parent?_eq (h : path'.parent? = path.parent?) :
    ∃ parents, path.ancestors = path :: parents ∧ path'.ancestors = path' :: parents := by
  cases hparent : path.parent? with
  | none => exact ⟨[], Path.ancestors_of_none hparent, Path.ancestors_of_none (h.trans hparent)⟩
  | some parent =>
    exact ⟨_, Path.ancestors_of_parent? hparent, Path.ancestors_of_parent? (h.trans hparent)⟩

theorem makeDirectories_of_enters (disk : Disk) (h : tree.Enters path location) :
    disk.makeDirectories path tree = .ok () tree := by
  obtain ⟨parents, hancestors, -⟩ := ancestors_of_parent?_eq (rfl : path.parent? = path.parent?)
  rw [makeDirectories, hancestors]
  by_cases htext : path.text = ""
  · simp [ensureChain, htext]
  · have hok := ensureDirectory_of_enters disk h htext
    rw [ensureChain_of_ne htext (by simp [hok]), hok]

theorem makeDirectory_reliable (htext : path.text ≠ "")
    (h : tree.walk (tree.origin path) (steps path) = .ok location)
    (hnone : tree.node? location = none) :
    reliable.makeDirectory path tree = .ok () (tree.put location .directory) := by
  rw [FileTree.origin] at h
  simp [makeDirectory, reliable, FileTree.locate, htext, h, hnone]

/-- Making a directory goes by the steps of its path and by its parent. -/
theorem makeDirectories_congr (htext : path.text ≠ "") (htext' : path'.text ≠ "")
    (habsolute : path'.isAbsolute = path.isAbsolute) (hsteps : steps path' = steps path)
    (hparent : path'.parent? = path.parent?) :
    reliable.makeDirectories path' = reliable.makeDirectories path := by
  have hmake : reliable.makeDirectory path' = reliable.makeDirectory path := by
    funext tree
    simp [makeDirectory, reliable, FileTree.locate, htext, htext', habsolute, hsteps]
  have hdirectory : ∀ tree : FileTree, tree.isDirectory path' = tree.isDirectory path := by
    intro tree
    rw [Bool.eq_iff_iff, FileTree.isDirectory_iff, FileTree.isDirectory_iff]
    simp [htext, htext', FileTree.enters_iff, FileTree.origin, habsolute, hsteps]
  have hensure : reliable.ensureDirectory path' = reliable.ensureDirectory path := by
    funext tree
    rw [ensureDirectory_eq, ensureDirectory_eq, hmake, hdirectory]
  obtain ⟨parents, hancestors, hancestors'⟩ := ancestors_of_parent?_eq hparent
  funext tree
  simp only [makeDirectories, hancestors, hancestors', ensureChain, htext, htext', if_false,
    hensure]

/-- A path with a parent leads on from the directory that the parent enters. -/
theorem enters_of_parent? {parent : Path} (h : path.parent? = some parent)
    (hwalk : tree.walk (tree.origin path.core) (steps path.core) = .ok location) :
    ∃ above, tree.Enters parent above := by
  obtain ⟨directory, name, hcore, hslash, hne, rfl⟩ := Path.exists_join_of_parent? h
  have horigin : tree.origin path.core = tree.origin directory := by
    simp [FileTree.origin, hcore, Path.isAbsolute_join directory hslash]
  obtain ⟨step, hstep⟩ : ∃ step, [name].filterMap
      (fun piece => if piece = "." then some .here else Path.inner? piece) = [step] := by
    by_cases hhere : name = "."
    · exact ⟨.here, by simp [hhere]⟩
    · by_cases hup : name = ".."
      · exact ⟨.up, by simp [Path.inner?, hup]⟩
      · exact ⟨.name name, by simp [Path.inner?, hne, hhere, hup]⟩
  rw [horigin, hcore, Path.steps_join_of_noSlash directory hslash, hstep] at hwalk
  obtain ⟨above, habove, hnode, -⟩ := FileTree.walk_concat_eq_ok hwalk
  exact ⟨above, FileTree.enters_core_iff.mpr ⟨habove, hnode⟩⟩

/-- A dot at the end of a path is there only when the directory is, so it is never made. -/
theorem enters_of_ensureDirectory {front : List Component}
    (hsteps : steps path = front ++ [.here]) (h : disk.ensureDirectory path tree = .ok () tree') :
    tree' = tree ∧ ∃ location, tree.Enters path location := by
  rw [ensureDirectory_eq] at h
  by_cases hdirectory : tree.isDirectory path = true
  · rw [if_pos hdirectory] at h
    cases h
    exact ⟨rfl, (FileTree.isDirectory_iff.mp hdirectory).2⟩
  · rw [if_neg hdirectory] at h
    obtain ⟨e, hmake⟩ | ⟨location, hwalk, hnone, -⟩ := makeDirectory_cases disk path tree
    · rw [hmake] at h
      cases h
    · rw [hsteps] at hwalk
      obtain ⟨last, -, hlast, rfl⟩ := FileTree.walk_concat_eq_ok hwalk
      simp [hlast] at hnone

/-- If the way of a path is open as far as its last component, all above is there. -/
theorem ensureChain_parents {parents : List Path} (hancestors : path.ancestors = path :: parents)
    (h : tree.walk (tree.origin path.core) (steps path.core) = .ok location) :
    disk.ensureChain parents tree = .ok () tree := by
  cases hparent : path.parent? with
  | none =>
    obtain rfl : [] = parents := by
      simpa [Path.ancestors_of_none hparent] using hancestors
    rfl
  | some parent =>
    obtain rfl : parent.ancestors = parents := by
      simpa [Path.ancestors_of_parent? hparent] using hancestors
    obtain ⟨above, habove⟩ := enters_of_parent? hparent h
    exact makeDirectories_of_enters disk habove

/-- What follows the last component of a path does not matter for making a directory. -/
theorem makeDirectories_core (h : reliable.makeDirectories path tree = .ok () tree') :
    reliable.makeDirectories path.core tree = .ok () tree' := by
  by_cases htext : path.text = ""
  · have hcore : path.core = path := by
      rw [Path.eq_of_text_eq_empty htext]
      decide
    rwa [hcore]
  have hcoretext : path.core.text ≠ "" := Path.text_core_eq_empty_iff.not.mpr htext
  obtain ⟨n, hsteps⟩ := path.exists_steps_core
  cases n with
  | zero =>
    rw [List.replicate_zero, List.append_nil] at hsteps
    rwa [makeDirectories_congr htext hcoretext path.isAbsolute_core hsteps.symm path.parent?_core]
  | succ n =>
    rw [List.replicate_succ', ← List.append_assoc] at hsteps
    obtain ⟨parents, hancestors, hcore⟩ := ancestors_of_parent?_eq path.parent?_core
    rw [makeDirectories, hancestors] at h
    by_cases hmissing : reliable.ensureDirectory path tree = .error .notFound tree
    · rw [ensureChain_of_notFound htext hmissing] at h
      obtain ⟨between, hchain, hlast⟩ := exists_of_bind_ok h
      obtain ⟨rfl, location, henters⟩ := enters_of_ensureDirectory hsteps hlast
      have hentersCore := FileTree.enters_core_iff.mpr henters
      have hgrown := grown_ensureChain reliable parents tree
      rw [after_of_ok hchain] at hgrown
      -- the way up to the last component was not open, or nothing would have been made
      have hclosed : ∀ other, tree.walk (tree.origin path.core) (steps path.core) ≠ .ok other := by
        intro other hwalk
        rw [ensureChain_parents hancestors hwalk] at hchain
        cases hchain
        rw [ensureDirectory_of_enters reliable henters htext] at hmissing
        cases hmissing
      have hwalk := hentersCore.walk
      rw [hgrown.toExtends.origin] at hwalk
      have hbroken := (hgrown.walk hwalk).resolve_left (hclosed _)
      have hmissingCore : reliable.ensureDirectory path.core tree = .error .notFound tree := by
        rw [ensureDirectory_eq, if_neg, makeDirectory_of_error hcoretext hbroken]
        rw [FileTree.isDirectory_iff]
        rintro ⟨-, other, hother⟩
        exact hclosed other hother.walk
      rw [makeDirectories, hcore, ensureChain_of_notFound hcoretext hmissingCore]
      simp [bind, EStateM.bind, hchain, ensureDirectory_of_enters reliable hentersCore hcoretext]
    · rw [ensureChain_of_ne htext hmissing] at h
      obtain ⟨rfl, location, henters⟩ := enters_of_ensureDirectory hsteps h
      exact makeDirectories_of_enters reliable (FileTree.enters_core_iff.mpr henters)

/-! ## Rows of directories -/

/-- A name in a directory that is entered is made there, unless it is there. -/
theorem ensureDirectory_join (h : tree.Enters directory location) (hname : ProperName name)
    (hfree : ∀ content, tree.node? (location ++ [name]) ≠ some (.file content)) :
    reliable.ensureDirectory (directory.join ⟨name⟩) tree =
      .ok () (tree.supply (location ++ [name])) := by
  have htext := Path.text_join_ne_empty directory hname
  unfold FileTree.supply
  cases hnode : tree.node? (location ++ [name]) with
  | none =>
    rw [ensureDirectory_eq, if_neg, makeDirectory_reliable htext (FileTree.walk_join h hname) hnode,
      if_pos rfl]
    rw [FileTree.isDirectory_iff]
    rintro ⟨-, other, henters⟩
    have hother := henters.walk
    rw [FileTree.walk_join h hname] at hother
    cases hother
    simp [henters.node] at hnode
  | some node =>
    cases node with
    | file content => exact absurd hnode (hfree content)
    | directory =>
      rw [if_neg (by simp)]
      exact ensureDirectory_of_enters reliable (h.join hname hnode) htext

/-- A directory can be made in one that can be made, unless a file is in its place. -/
theorem makeDirectories_join (h : reliable.makeDirectories directory tree = .ok () tree')
    (henters : tree'.Enters directory location) (hname : ProperName name)
    (hfree : ∀ content, tree'.node? (location ++ [name]) ≠ some (.file content)) :
    reliable.makeDirectories (directory.join ⟨name⟩) tree =
      .ok () (tree'.supply (location ++ [name])) := by
  have htext := Path.text_join_ne_empty directory hname
  have hancestors := Path.ancestors_of_parent? (Path.parent?_join directory hname)
  have hgrown := grown_of_ok h
  rw [makeDirectories, hancestors]
  by_cases hthere : ∃ other, tree.Enters directory other
  · obtain ⟨other, hother⟩ := hthere
    rw [makeDirectories_of_enters reliable hother] at h
    cases h
    have hok := ensureDirectory_join henters hname hfree
    rw [ensureChain_of_ne htext (by simp [hok]), hok]
  · have hclosed : ∀ other, tree.walk (tree.origin (directory.join ⟨name⟩))
        (steps (directory.join ⟨name⟩)) ≠ .ok other := by
      intro other hwalk
      exact hthere (FileTree.enters_of_walk_join hname hwalk)
    have hwalk := FileTree.walk_join henters hname
    rw [hgrown.toExtends.origin] at hwalk
    have hbroken := (hgrown.walk hwalk).resolve_left (hclosed _)
    have hmissing :
        reliable.ensureDirectory (directory.join ⟨name⟩) tree = .error .notFound tree := by
      rw [ensureDirectory_eq, if_neg, makeDirectory_of_error htext hbroken]
      rw [FileTree.isDirectory_iff]
      rintro ⟨-, other, hother⟩
      exact hclosed other hother.walk
    have hchain := makeDirectories_core h
    rw [makeDirectories] at hchain
    rw [ensureChain_of_notFound htext hmissing]
    simp [bind, EStateM.bind, hchain, ensureDirectory_join henters hname hfree]

/-- A row of directories can be made below one that can be made, unless a file is in the way. -/
theorem makeDirectories_descend (h : reliable.makeDirectories directory tree = .ok () tree')
    (henters : tree'.Enters directory location) (hproper : ∀ name ∈ row, ProperName name)
    (hfree : ∀ front, front <+: row → ∀ content,
      tree'.node? (location ++ front) ≠ some (.file content)) :
    reliable.makeDirectories (directory.descend row) tree = .ok () (tree'.supplyRow location row) ∧
      (tree'.supplyRow location row).Enters (directory.descend row) (location ++ row) := by
  induction row generalizing directory tree' location with
  | nil => simpa [Path.descend, FileTree.supplyRow] using ⟨h, henters⟩
  | cons name row ih =>
    obtain ⟨hname, hrow⟩ := List.forall_mem_cons.mp hproper
    have hfirst := hfree [name] (by simp)
    have hdirectory : (tree'.supply (location ++ [name])).node? (location ++ [name]) =
        some .directory := by
      rw [FileTree.node?_supply]
      cases hnode : tree'.node? (location ++ [name]) with
      | none => simp
      | some node =>
        cases node with
        | file content => exact absurd hnode (hfirst content)
        | directory => simp
    have hsupply : tree'.Extends (tree'.supply (location ++ [name])) :=
      FileTree.extends_supply _ _
    have hbelow := ih (makeDirectories_join h henters hname hfirst)
      ((henters.mono hsupply).join hname hdirectory) hrow (fun front hfront content => ?_)
    · simpa [Path.descend, FileTree.supplyRow] using hbelow
    · rw [FileTree.node?_supply, List.append_assoc]
      split
      · simp
      · exact hfree (name :: front) (by simpa using hfront) content

/-- A slash at the end of a path does not matter for making a directory. -/
theorem makeDirectories_join_empty (h : reliable.makeDirectories directory tree = .ok () tree')
    (henters : tree'.Enters directory location) :
    reliable.makeDirectories (directory.join ⟨""⟩) tree = .ok () tree' ∧
      tree'.Enters (directory.join ⟨""⟩) location := by
  by_cases htext : directory.text = ""
  · have hjoin : directory.join ⟨""⟩ = directory := by
      rw [Path.eq_of_text_eq_empty htext]
      decide
    rw [hjoin]
    exact ⟨h, henters⟩
  · obtain ⟨htext', habsolute, hsteps, hparent⟩ := Path.slash_of_join_empty htext
    rw [makeDirectories_congr htext htext' habsolute hsteps hparent]
    refine ⟨h, ?_, henters.node⟩
    rw [hsteps, FileTree.origin, habsolute]
    exact henters.walk

end Disk

end Jack
