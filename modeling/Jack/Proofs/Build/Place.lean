import Jack.Proofs.Build.Unit
import Jack.Proofs.File.Discovery

/-!
# The places of sources and output files

A source that is discovered is a file in some row of directories below the one where the search
starts (`Placed`). Its output files go to the same row of directories below the target, which is
that directory again or the output directory (`Target`, `Yields`). They are named for the unit, so
the output files of different sources are different, and no source is among them
(`pairwise_apart`). An output directory that is not there yet is a target (`target_of_fresh`).
-/

namespace Jack

/-- The name has the extension of an output file. -/
def OutputName (name : String) : Prop := ∃ stem, name = stem ++ ".vm" ∨ name = stem ++ ".xml"

theorem outputName_iff {name : String} : OutputName name ↔
    ".vm".toList <:+ name.toList ∨ ".xml".toList <:+ name.toList := by
  have hsuffix : ∀ ending : String, (∃ stem, name = stem ++ ending) ↔
      ending.toList <:+ name.toList := by
    intro ending
    constructor
    · rintro ⟨stem, rfl⟩
      exact ⟨stem.toList, by simp⟩
    · rintro ⟨front, hfront⟩
      exact ⟨String.ofList front, String.toList_inj.mp (by simp [hfront])⟩
  rw [← hsuffix, ← hsuffix, OutputName, exists_or]

instance (name : String) : Decidable (OutputName name) := decidable_of_iff' _ outputName_iff

namespace Build

variable {settings : Settings} {tree : FileTree} {base target : Location}
  {root path source : Path} {row : List String} {name code : String} {listing : Option ByteArray}

/-! ## Output files -/

/-- The output files of a unit, in the directory to which a row of names leads. -/
def outputs (target : Location) (row : List String) (stem code : String)
    (listing : Option ByteArray) : List (Location × ByteArray) :=
  (target ++ (row ++ [stem ++ ".vm"]), code.toUTF8) ::
    listing.toList.map fun bytes => (target ++ (row ++ [stem ++ "T.xml"]), bytes)

theorem mem_outputs {stem : String} {output : Location × ByteArray} :
    output ∈ outputs target row stem code listing ↔
      output = (target ++ (row ++ [stem ++ ".vm"]), code.toUTF8) ∨
      ∃ bytes, listing = some bytes ∧ output = (target ++ (row ++ [stem ++ "T.xml"]), bytes) := by
  cases listing <;> simp [outputs]

/-- A name that ends like an output file is that of a file that can be made. -/
theorem properName_of_append {stem ending : String} (h : '/' ∉ stem.toList)
    (hending : ending = ".vm" ∨ ending = "T.xml") : ProperName (stem ++ ending) := by
  have hlength : 3 ≤ ending.toList.length := by obtain rfl | rfl := hending <;> decide
  have hslash : '/' ∉ ending.toList := by obtain rfl | rfl := hending <;> decide
  have hlong : ∀ short : String, short.toList.length < 3 → stem ++ ending ≠ short := by
    rintro short hshort rfl
    rw [String.toList_append, List.length_append] at hshort
    omega
  exact ⟨hlong "" (by decide), hlong "." (by decide), hlong ".." (by decide), by simp [h, hslash]⟩

/-- The endings of sources and output files are told apart by their last characters. -/
theorem append_ending_inj {a b x y : String} (hx : x ∈ [".jack", ".vm", "T.xml"])
    (hy : y ∈ [".jack", ".vm", "T.xml"]) (h : a ++ x = b ++ y) : a = b ∧ x = y := by
  have hlast : (a ++ x).toList.getLast? = (b ++ y).toList.getLast? := by rw [h]
  have hends : x = y := by
    simp only [List.mem_cons, List.not_mem_nil, or_false] at hx hy
    obtain rfl | rfl | rfl := hx <;> obtain rfl | rfl | rfl := hy <;>
      first
      | rfl
      | simp at hlast
  subst hends
  exact ⟨(String.append_left_inj x).mp h, rfl⟩

theorem outputName_code (stem : String) : OutputName (stem ++ ".vm") := ⟨stem, .inl rfl⟩

theorem outputName_listing (stem : String) : OutputName (stem ++ "T.xml") :=
  ⟨stem ++ "T", .inr (by rw [String.append_assoc]; rfl)⟩

/-- Where the output of the sources below a directory goes: beside them, or below the output
directory, which can be made and holds no file then and no directory named like one. -/
structure Target (settings : Settings) (tree : FileTree) (base target : Location) : Prop where
  beside : settings.outputDirectory = none → target = base
  below : ∀ output, settings.outputDirectory = some output →
    ∃ made, Disk.reliable.makeDirectories output tree = .ok () made ∧ made.Enters output target ∧
      ∀ row name node, made.node? (target ++ (row ++ [name])) = some node →
        node = .directory ∧ ¬ OutputName name

/-- What a source below a directory gives goes to the same place below the target. -/
def Yields (settings : Settings) (tree : FileTree) (base target : Location) (source : Path)
    (output : Location × ByteArray) : Prop :=
  ∃ row name code listing, tree.find source = .ok (base ++ (row ++ [name])) ∧
    product .reliable settings source tree = .ok (code, listing) ∧
    output ∈ outputs target row source.stem code listing

/-! ## The places of sources -/

/-- The source is a file in a directory that a row of names leads to, and its path says so. -/
structure Placed (tree : FileTree) (root : Path) (base : Location) (source : Path)
    (row : List String) (name : String) : Prop where
  find : tree.find source = .ok (base ++ (row ++ [name]))
  file : ∃ content, tree.node? (base ++ (row ++ [name])) = some (.file content)
  parent : ∃ directory, source.parent? = some directory ∧ tree.Enters directory (base ++ row) ∧
    directory.components = root.components ++ row.map .name
  stem : source.stem = (Path.splitName name).1

theorem Placed.directory (h : Placed tree root base source row name) :
    tree.node? (base ++ row) = some .directory := by
  obtain ⟨directory, -, henters, -⟩ := h.parent
  exact henters.node

theorem Placed.noSlash (h : Placed tree root base source row name) (hwf : tree.WellFormed) :
    '/' ∉ source.stem.toList := by
  obtain ⟨content, hfile⟩ := h.file
  rw [h.stem]
  intro hslash
  exact (hwf.proper_of_append hfile name (by simp)).noSlash (Path.mem_of_mem_stem hslash)

/-- A path that leads to a file is a source in the directory above the file. -/
theorem placed_of_file (hwf : tree.WellFormed) {content : ByteArray} {location : Location}
    (hfind : tree.find path = .ok location) (hnode : tree.node? location = some (.file content))
    (hbase : tree.Enters (layoutRoot path tree) base) :
    ∃ name, Placed tree (layoutRoot path tree) base path [] name := by
  obtain ⟨directory, above, name, rfl, hname, henters, rfl⟩ :=
    FileTree.exists_join_of_find hwf hfind hnode
  have hparent := Path.parent?_join directory hname
  have hroot : layoutRoot (directory.join ⟨name⟩) tree = directory.core := by
    have hfile : tree.isDirectory (directory.join ⟨name⟩) = false := by
      simp [FileTree.isDirectory, hfind, hnode]
    simp [layoutRoot, hfile, hparent]
  rw [hroot] at hbase ⊢
  have hcore := FileTree.enters_core_iff.mpr henters
  obtain rfl := hbase.unique hcore
  refine ⟨name, by simpa using hfind, ⟨content, by simpa using hnode⟩,
    ⟨directory.core, hparent, by simpa using hcore, by simp⟩, ?_⟩
  simp [Path.stem, Path.fileName?_join directory hname]

/-- What is discovered below a directory is in its place there, under the name of its unit. -/
theorem placed_of_directory (hwf : tree.WellFormed) (hfind : tree.find path = .ok base)
    (hnode : tree.node? base = some .directory) (hsource : source ∈ tree.discover path) :
    ∃ row, source = path.descend (row ++ [source.stem ++ ".jack"]) ∧
      Placed tree path base source row (source.stem ++ ".jack") := by
  obtain ⟨row, stem, content, hstem, hfile, rfl⟩ :=
    (FileTree.mem_discover hwf hfind hnode).mp hsource
  have henters := (FileTree.enters_of_find hfind hnode).2
  have hfound := henters.find_descend hwf hfile
  have hproper := hwf.proper_of_append hfile
  have hname : ProperName (stem ++ ".jack") := hproper _ (by simp)
  have habove : tree.node? (base ++ row) = some .directory := by
    rw [← List.append_assoc] at hfile
    exact (hwf.above hfile).1
  have hsplit : Path.splitName (stem ++ ".jack") = (stem, some "jack") :=
    Path.splitName_eq_iff.mpr ⟨hstem, by decide, by rw [String.append_assoc]; rfl⟩
  rw [Path.descend_concat] at hfound ⊢
  have hunit : ((path.descend row).join ⟨stem ++ ".jack"⟩).stem = stem := by
    simp [Path.stem, Path.fileName?_join _ hname, hsplit]
  rw [hunit]
  refine ⟨row, (Path.descend_concat path row _).symm, hfound, ⟨content, hfile⟩,
    ⟨(path.descend row).core, ?_, ?_, ?_⟩, ?_⟩
  · exact Path.parent?_join _ hname
  · exact FileTree.enters_core_iff.mpr (henters.descend hwf habove)
  · rw [Path.components_core, Path.components_descend]
    exact fun name hname => hproper name (by simp [hname])
  · rw [hunit, hsplit]

/-! ## Different sources -/

theorem yields_iff (hplaced : Placed tree root base source row name)
    (hproduct : product .reliable settings source tree = .ok (code, listing))
    {output : Location × ByteArray} : Yields settings tree base target source output ↔
      output ∈ outputs target row source.stem code listing := by
  constructor
  · rintro ⟨row', name', code', listing', hfind, hproduct', houtput⟩
    rw [hplaced.find] at hfind
    rw [hproduct] at hproduct'
    cases hproduct'
    have hrow := List.append_cancel_left (Except.ok.inj hfind)
    rw [(List.append_inj' hrow rfl).1]
    exact houtput
  · exact fun houtput => ⟨row, name, code, listing, hplaced.find, hproduct, houtput⟩

/-- The output files of the first source are neither the other source nor its output files. -/
def Apart (settings : Settings) (tree : FileTree) (base target : Location)
    (source other : Path) : Prop :=
  ∀ output, Yields settings tree base target source output → tree.find other ≠ .ok output.1 ∧
    ∀ output', Yields settings tree base target other output' → output.1 ≠ output'.1

/-- Output files are in the place of their source below the target, with the name of the unit. -/
theorem Yields.location {output : Location × ByteArray}
    (h : Yields settings tree base target source output)
    (hplaced : Placed tree root base source row name) :
    ∃ ending ∈ [".vm", "T.xml"], output.1 = target ++ (row ++ [source.stem ++ ending]) := by
  have ⟨_, _, code, listing, _, hproduct, _⟩ := h
  obtain rfl | ⟨bytes, -, rfl⟩ := mem_outputs.mp ((yields_iff hplaced hproduct).mp h)
  · exact ⟨".vm", by simp, rfl⟩
  · exact ⟨"T.xml", by simp, rfl⟩

/-- The output files of different sources below a directory are different, and no source is among
them. -/
theorem pairwise_apart (hwf : tree.WellFormed) (hfind : tree.find path = .ok base)
    (hnode : tree.node? base = some .directory) (htarget : Target settings tree base target) :
    (tree.discover path).Pairwise (Apart settings tree base target) := by
  refine (FileTree.pairwise_discover hwf path).imp_of_mem
    fun {source other} hsource hother hbefore output hyields => ?_
  obtain ⟨row, hpath, hplaced⟩ := placed_of_directory hwf hfind hnode hsource
  obtain ⟨row', hpath', hplaced'⟩ := placed_of_directory hwf hfind hnode hother
  obtain ⟨ending, hending, hlocation⟩ := hyields.location hplaced
  rw [hlocation]
  constructor
  · intro hfound
    have hsame := Except.ok.inj (hplaced'.find.symm.trans hfound)
    cases hsettings : settings.outputDirectory with
    | none =>
      obtain rfl := htarget.beside hsettings
      have hname := (List.append_inj' (List.append_cancel_left hsame) rfl).2
      have hends := (append_ending_inj (by simp) (List.mem_cons_of_mem _ hending)
        (List.singleton_inj.mp hname)).2
      subst hends
      exact absurd hending (by decide)
    | some directory =>
      obtain ⟨made, hmake, -, hempty⟩ := htarget.below directory hsettings
      have hgrown := Disk.grown_of_ok hmake
      obtain ⟨content, hfile⟩ := hplaced'.file
      rw [hsame] at hfile
      cases (hempty _ _ _ (hgrown.node hfile)).1
  · intro output' hyields' hsame
    obtain ⟨ending', hending', hlocation'⟩ := hyields'.location hplaced'
    rw [hlocation'] at hsame
    obtain ⟨rfl, hname⟩ := List.append_inj' (List.append_cancel_left hsame) rfl
    have hstem := (append_ending_inj (List.mem_cons_of_mem _ hending)
      (List.mem_cons_of_mem _ hending') (List.singleton_inj.mp hname)).1
    rw [hpath, hstem, ← hpath'] at hbefore
    exact Std.Irrefl.irrefl (r := Path.Before) _ hbefore

/-! ## New output directories -/

/-- An output directory that is new can be made and is empty then, but for directories that its own
path names. -/
theorem target_of_fresh (hwf : tree.WellFormed) {output : Path} {made : FileTree}
    (hsettings : settings.outputDirectory = some output)
    (hmake : Disk.reliable.makeDirectories output tree = .ok () made)
    (henters : made.Enters output target) (hfresh : tree.node? target = none)
    (hnames : ∀ name, Component.name name ∈ FileTree.steps output → ¬ OutputName name) :
    Target settings tree base target := by
  refine ⟨by simp [hsettings], fun other hother => ?_⟩
  obtain rfl := Option.some.inj (hsettings.symm.trans hother)
  refine ⟨made, hmake, henters, fun row name node hnode => ?_⟩
  have hgrown := Disk.grown_of_ok hmake
  have hnone : tree.node? (target ++ (row ++ [name])) = none := by
    by_contra hsome
    obtain ⟨node, hnode⟩ := Option.ne_none_iff_exists'.mp hsome
    rw [hwf.directory_of_append (by simp) hnode] at hfresh
    cases hfresh
  have hnew : made.node? (target ++ (row ++ [name])) ≠ tree.node? (target ++ (row ++ [name])) := by
    simp [hnode, hnone]
  obtain ⟨-, hdirectory, -⟩ := hgrown.changed _ hnew
  refine ⟨Option.some.inj (hnode.symm.trans hdirectory), hnames name ?_⟩
  rw [← List.append_assoc] at hnew
  exact hgrown.name_mem_steps hwf hnew

end Build

end Jack
