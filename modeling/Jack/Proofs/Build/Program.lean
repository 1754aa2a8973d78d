import Jack.Proofs.Build.Place

/-!
# A build is the compilation of its units

A `Stage` of a build is the tree with the output files written so far: they are held, everything
else is as it was but for missing directories that have been made, and no directory has the name of
an output file, so that the next unit can be written too.

1. Making the directories of a source keeps a stage (`Stage.supplyRow`), and so does writing an
   output file that is not there yet (`Stage.put`). Hence a unit that compiles is built
   (`Stage.unit`).
2. What was written is no source, so each source gives what it gave at first, and unit after unit is
   built as if it were alone (`Stage.attemptAll`).
3. `build_is_unitwise` says this of a whole build.
-/

namespace Jack

namespace Build

variable {settings : Settings} {tree now next : FileTree} {base target : Location}
  {root path source : Path} {row : List String} {name code : String}
  {listing : Option ByteArray} {done : List (Location × ByteArray)}

/-! ## Writing the output of a unit -/

/-- The tree at some stage of a build, with the output files written so far. -/
structure Stage (settings : Settings) (tree : FileTree) (base target : Location) (now : FileTree)
    (done : List (Location × ByteArray)) : Prop where
  beside : settings.outputDirectory = none → target = base
  below : ∀ output, settings.outputDirectory = some output → now.Enters output target
  toExtends : tree.Extends now
  names : ∀ row name, now.node? (target ++ (row ++ [name])) = some .directory → ¬ OutputName name
  clear : ∀ row, tree.node? (base ++ row) = some .directory →
    ∀ content, now.node? (target ++ row) ≠ some (.file content)
  held : ∀ output ∈ done, now.node? output.1 = some (.file output.2)
  changed : ∀ location, now.node? location ≠ tree.node? location →
    (∃ output ∈ done, output.1 = location) ∨
    settings.outputDirectory ≠ none ∧ tree.node? location = none ∧
      now.node? location = some .directory

/-- The output directory is made in one tree and is there in the other. -/
def Opens (settings : Settings) (now next : FileTree) : Prop :=
  (settings.outputDirectory = none → next = now) ∧
    ∀ output, settings.outputDirectory = some output →
      Disk.reliable.makeDirectories output now = .ok () next

theorem Stage.opens (h : Stage settings tree base target now done) : Opens settings now now :=
  ⟨fun _ => rfl, fun output houtput => Disk.makeDirectories_of_enters _ (h.below output houtput)⟩

theorem Stage.of_mem_iff {done' : List (Location × ByteArray)}
    (h : Stage settings tree base target now done)
    (hmem : ∀ output, output ∈ done' ↔ output ∈ done) :
    Stage settings tree base target now done' :=
  { h with
    held := fun output houtput => h.held output ((hmem output).mp houtput)
    changed := by simpa only [hmem] using h.changed }

/-- Before anything is written. -/
theorem exists_stage (htarget : Target settings tree base target)
    (hnames : ∀ row name, tree.node? (base ++ (row ++ [name])) = some .directory →
      ¬ OutputName name) :
    ∃ next, Opens settings tree next ∧ Stage settings tree base target next [] := by
  cases hsettings : settings.outputDirectory with
  | none =>
    obtain rfl := htarget.beside hsettings
    refine ⟨tree, ⟨fun _ => rfl, by simp [hsettings]⟩, ⟨fun _ => rfl, by simp [hsettings],
      ⟨rfl, id⟩, hnames, fun row hrow => by simp [hrow], by simp, fun _ h => absurd rfl h⟩⟩
  | some output =>
    obtain ⟨made, hmake, henters, hempty⟩ := htarget.below output hsettings
    have hgrown := Disk.grown_of_ok hmake
    refine ⟨made, ⟨by simp [hsettings], ?_⟩, ⟨by simp [hsettings], ?_, hgrown.toExtends, ?_, ?_,
      by simp, ?_⟩⟩
    · rintro other hother
      cases hsettings.symm.trans hother
      exact hmake
    · rintro other hother
      cases hsettings.symm.trans hother
      exact henters
    · exact fun row name hnode => (hempty row name _ hnode).2
    · intro row hrow content hfile
      obtain rfl | ⟨front, name, rfl⟩ := List.eq_nil_or_concat' row
      · simp [henters.node] at hfile
      · cases (hempty front name _ hfile).1
    · intro location hchanged
      obtain ⟨hnone, hdirectory, -⟩ := hgrown.changed location hchanged
      exact .inr ⟨by simp [hsettings], hnone, hdirectory⟩

/-- The output directory of a source can be made. -/
theorem Stage.makeDirectories (h : Stage settings tree base target next done)
    (hwf : tree.WellFormed) (hopens : Opens settings now next)
    (hplaced : Placed tree root base source row name) :
    Disk.reliable.makeDirectories (outputDirectory settings root source) now =
      .ok () (next.supplyRow target row) ∧
    (next.supplyRow target row).Enters (outputDirectory settings root source) (target ++ row) := by
  obtain ⟨directory, hparent, henters, hcomponents⟩ := hplaced.parent
  have habove : ∀ front, front <+: row → tree.node? (base ++ front) = some .directory :=
    fun front hfront => hwf.directory_of_front hfront hplaced.directory
  cases hsettings : settings.outputDirectory with
  | none =>
    have houtput : outputDirectory settings root source = directory := by
      simp [outputDirectory, hsettings, hparent]
    obtain rfl := h.beside hsettings
    obtain rfl := hopens.1 hsettings
    have hnow := henters.mono h.toExtends
    rw [houtput, FileTree.supplyRow_of_directories fun front hfront =>
      h.toExtends.directory (habove front hfront)]
    exact ⟨Disk.makeDirectories_of_enters _ hnow, hnow⟩
  | some output =>
    have houtput : outputDirectory settings root source =
        output.join ⟨"/".intercalate row⟩ := by
      simp [outputDirectory, hsettings, hparent, Path.relativeTo?_descend hcomponents]
    have hmake := hopens.2 output hsettings
    have hbelow := h.below output hsettings
    rw [houtput]
    by_cases hrow : row = []
    · rw [hrow, List.append_nil]
      exact Disk.makeDirectories_join_empty hmake hbelow
    · have hproper := hwf.proper_of_append hplaced.directory
      rw [Path.join_intercalate output hproper hrow]
      exact Disk.makeDirectories_descend hmake hbelow hproper fun front hfront =>
        h.clear front (habove front hfront)

section Stages

variable (hwf : tree.WellFormed)
  (hnames : ∀ row name, tree.node? (base ++ (row ++ [name])) = some .directory → ¬ OutputName name)

include hnames

include hwf in
/-- The directories of a row above a source are made. -/
theorem Stage.supplyRow (h : Stage settings tree base target now done)
    (hrow : tree.node? (base ++ row) = some .directory) :
    Stage settings tree base target (now.supplyRow target row) done := by
  have hextends := now.extends_supplyRow target row
  have habove : ∀ front, front <+: row → tree.node? (base ++ front) = some .directory :=
    fun front hfront => hwf.directory_of_front hfront hrow
  refine ⟨h.beside, fun output houtput => (h.below output houtput).mono hextends,
    h.toExtends.trans hextends, ?_, ?_, ?_, ?_⟩
  · intro front name hnode
    by_cases hsame : (now.supplyRow target row).node? (target ++ (front ++ [name])) =
        now.node? (target ++ (front ++ [name]))
    · exact h.names front name (hsame ▸ hnode)
    · obtain ⟨-, -, part, hpart, -, heq⟩ := FileTree.supplyRow_changed hsame
      obtain rfl := List.append_cancel_left heq
      exact hnames front name (habove _ hpart)
  · intro front hfront content hnode
    by_cases hsame : (now.supplyRow target row).node? (target ++ front) =
        now.node? (target ++ front)
    · exact h.clear front hfront content (hsame ▸ hnode)
    · obtain ⟨-, hdirectory, -⟩ := FileTree.supplyRow_changed hsame
      simp [hdirectory] at hnode
  · intro output houtput
    by_cases hsame : (now.supplyRow target row).node? output.1 = now.node? output.1
    · exact hsame.trans (h.held output houtput)
    · obtain ⟨hnone, -⟩ := FileTree.supplyRow_changed hsame
      simp [h.held output houtput] at hnone
  · intro location hchanged
    by_cases hsame : (now.supplyRow target row).node? location = now.node? location
    · rw [hsame] at hchanged ⊢
      exact h.changed location hchanged
    · obtain ⟨hnone, hdirectory, part, hpart, -, rfl⟩ := FileTree.supplyRow_changed hsame
      -- nothing was there at first: the stage has neither a file nor a directory there
      have hfirst : tree.node? (target ++ part) = none := by
        by_contra hsome
        obtain ⟨output, houtput, heq⟩ | ⟨-, -, hdirectory⟩ :=
          h.changed (target ++ part) (by rw [hnone]; exact Ne.symm hsome)
        · simp [← heq, h.held output houtput] at hnone
        · simp [hdirectory] at hnone
      refine .inr ⟨fun hbeside => ?_, hfirst, hdirectory⟩
      rw [h.beside hbeside, habove part hpart] at hfirst
      cases hfirst

/-- An output file is written. -/
theorem Stage.put (h : Stage settings tree base target now done) (hname : OutputName name)
    (bytes : ByteArray) (hfree : ∀ output ∈ done, output.1 ≠ target ++ (row ++ [name])) :
    Stage settings tree base target (now.put (target ++ (row ++ [name])) (.file bytes))
      ((target ++ (row ++ [name]), bytes) :: done) := by
  have hput := now.node?_put (show target ++ (row ++ [name]) ≠ [] by simp) (.file bytes)
  have hextends : now.Extends (now.put (target ++ (row ++ [name])) (.file bytes)) :=
    FileTree.extends_put (fun hnode => h.names row name hnode hname) bytes
  refine ⟨h.beside, fun output houtput => (h.below output houtput).mono hextends,
    h.toExtends.trans hextends, ?_, ?_, ?_, ?_⟩
  · intro front last hnode
    rw [hput] at hnode
    split at hnode
    · cases hnode
    · exact h.names front last hnode
  · intro front hfront content hnode
    rw [hput] at hnode
    split at hnode
    · rename_i heq
      obtain rfl := List.append_cancel_left heq
      exact hnames row name hfront hname
    · exact h.clear front hfront content hnode
  · intro output houtput
    obtain rfl | houtput := List.mem_cons.mp houtput
    · rw [hput, if_pos rfl]
    · rw [hput, if_neg (hfree output houtput).symm]
      exact h.held output houtput
  · intro location hchanged
    rw [hput] at hchanged ⊢
    split
    · rename_i heq
      exact .inl ⟨_, List.mem_cons_self, heq⟩
    · rename_i hne
      rw [if_neg hne] at hchanged
      obtain ⟨output, houtput, heq⟩ | hnew := h.changed location hchanged
      · exact .inl ⟨output, List.mem_cons_of_mem _ houtput, heq⟩
      · exact .inr hnew

include hwf in
/-- A unit that gives something is built, and its output files are written. -/
theorem Stage.unit (h : Stage settings tree base target next done)
    (hopens : Opens settings now next) (hplaced : Placed tree root base source row name)
    (hproduct : product .reliable settings source now = .ok (code, listing))
    (hfree : ∀ output ∈ done, ∀ new ∈ outputs target row source.stem code listing,
      output.1 ≠ new.1) :
    ∃ last, unit .reliable settings root source now = .ok (codePath settings root source) last ∧
      Stage settings tree base target last
        (outputs target row source.stem code listing ++ done) := by
  obtain ⟨hmake, henters⟩ := h.makeDirectories hwf hopens hplaced
  have hmade := h.supplyRow hwf hnames hplaced.directory
  have hslash := hplaced.noSlash hwf
  have hfound : (next.supplyRow target row).find (codePath settings root source) =
      .ok (target ++ (row ++ [source.stem ++ ".vm"])) := by
    rw [← List.append_assoc]
    exact henters.find_join (properName_of_append hslash (.inl rfl))
  have hplace : (next.supplyRow target row).node? (target ++ (row ++ [source.stem ++ ".vm"])) ≠
      some .directory := fun hnode => hmade.names _ _ hnode (outputName_code _)
  have hcode := Disk.writeBytes_reliable hfound hplace code.toUTF8
  have hcoded := hmade.put hnames (outputName_code source.stem) code.toUTF8
    fun output houtput => hfree output houtput _ List.mem_cons_self
  rw [unit_of_ok hproduct]
  cases listing with
  | none => exact ⟨_, deliver_none hmake hcode, hcoded⟩
  | some bytes =>
    rw [deliver_some bytes hmake hcode]
    have hentered := henters.mono (FileTree.extends_put hplace code.toUTF8)
    have hfound' := hentered.find_join (properName_of_append hslash (.inr rfl))
    rw [List.append_assoc] at hfound'
    have hlisting := Disk.writeBytes_reliable hfound'
      (fun hnode => hcoded.names _ _ hnode (outputName_listing _)) bytes
    have hlisted := hcoded.put hnames (outputName_listing source.stem) bytes
      fun output houtput => by
        obtain rfl | houtput := List.mem_cons.mp houtput
        · simp
        · exact hfree output houtput _ (mem_outputs.mpr (.inr ⟨bytes, rfl, rfl⟩))
    refine ⟨_, bind_files_of_ok hlisting, ?_⟩
    exact hlisted.of_mem_iff fun output => by simp [outputs, or_left_comm]

end Stages

/-! ## Unit after unit -/

/-- What a file gives depends on where its path leads and on what is there. -/
theorem product_congr {location : Location} {content : ByteArray}
    (hfind : tree.find source = .ok location) (hnode : tree.node? location = some (.file content))
    (hfind' : now.find source = .ok location) (hnode' : now.node? location = some (.file content)) :
    product .reliable settings source now = product .reliable settings source tree := by
  have hread := Disk.readBytes_reliable hfind hnode
  have hread' := Disk.readBytes_reliable hfind' hnode'
  unfold product
  cases htext : String.fromUTF8? content with
  | some text =>
    rw [Disk.readText_of_some hread htext, Disk.readText_of_some hread' htext]
  | none =>
    rw [Disk.readText_of_none hread htext, Disk.readText_of_none hread' htext]

/-- What is noted of a source, which depends on this source only. -/
def outcome (settings : Settings) (root : Path) (tree : FileTree) (source : Path) : Notice :=
  match product .reliable settings source tree with
  | .ok _ => .compiled source (codePath settings root source)
  | .error e => .failed source e

section Stages

variable (hwf : tree.WellFormed)
  (hnames : ∀ row name, tree.node? (base ++ (row ++ [name])) = some .directory → ¬ OutputName name)

include hwf hnames

/-- The sources are built one after the other, each as if it were alone. -/
theorem Stage.attemptAll {sources : List Path} (h : Stage settings tree base target next done)
    (hopens : Opens settings now next) (hnow : now = next ∨ now = tree ∧ done = [])
    (hplaced : ∀ source ∈ sources, ∃ row name, Placed tree root base source row name)
    (hapart : sources.Pairwise (Apart settings tree base target))
    (hdone : ∀ output ∈ done, ∀ source ∈ sources, tree.find source ≠ .ok output.1 ∧
      ∀ output', Yields settings tree base target source output' → output.1 ≠ output'.1) :
    ∃ last next' done',
      attemptAll .reliable settings root sources now =
        (sources.map (outcome settings root tree), last) ∧
      Stage settings tree base target next' done' ∧ (last = next' ∨ last = tree ∧ done' = []) ∧
      ∀ output, output ∈ done' ↔ output ∈ done ∨
        ∃ source ∈ sources, Yields settings tree base target source output := by
  induction sources generalizing now next done with
  | nil => exact ⟨now, next, done, rfl, h, hnow, by simp⟩
  | cons source sources ih =>
    obtain ⟨⟨row, name, hsource⟩, hplaced⟩ := List.forall_mem_cons.mp hplaced
    obtain ⟨hfirst, hapart⟩ := List.pairwise_cons.mp hapart
    -- nothing that has been written is the source
    have hproduct :
        product .reliable settings source now = product .reliable settings source tree := by
      obtain rfl | ⟨rfl, -⟩ := hnow
      · obtain ⟨content, hfile⟩ := hsource.file
        refine product_congr hsource.find hfile (h.toExtends.find hsource.find) ?_
        by_contra hne
        obtain ⟨output, houtput, heq⟩ | ⟨-, hnone, -⟩ := h.changed _ (hfile ▸ hne)
        · exact (hdone output houtput source List.mem_cons_self).1 (heq ▸ hsource.find)
        · simp [hfile] at hnone
      · rfl
    cases hresult : product .reliable settings source tree with
    | error e =>
      have hattempt : attempt .reliable settings root source now = (.failed source e, now) := by
        simp [attempt, unit_of_error (hproduct.trans hresult)]
      have hnothing : ∀ output, ¬ Yields settings tree base target source output := by
        rintro output ⟨row, name, code, listing, -, hok, -⟩
        simp [hresult] at hok
      obtain ⟨last, next', done', hall, hstage, hlast, hmem⟩ := ih h hopens hnow hplaced hapart
        fun output houtput other hother =>
          hdone output houtput other (List.mem_cons_of_mem _ hother)
      refine ⟨last, next', done', ?_, hstage, hlast, fun output => ?_⟩
      · simp [Build.attemptAll, hattempt, hall, outcome, hresult]
      · simp [hmem, hnothing]
    | ok result =>
      obtain ⟨code, listing⟩ := result
      have hyields : ∀ output, output ∈ outputs target row source.stem code listing ↔
          Yields settings tree base target source output :=
        fun output => (yields_iff hsource hresult).symm
      obtain ⟨after, hunit, hstage⟩ := h.unit hwf hnames hopens hsource (hproduct.trans hresult)
        fun output houtput new hnew =>
          (hdone output houtput source List.mem_cons_self).2 new ((hyields new).mp hnew)
      have hattempt : attempt .reliable settings root source now =
          (.compiled source (codePath settings root source), after) := by
        simp [attempt, hunit]
      obtain ⟨last, next', done', hall, hstage', hlast, hmem⟩ := ih hstage hstage.opens (.inl rfl)
        hplaced hapart (fun output houtput other hother => by
          obtain houtput | houtput := List.mem_append.mp houtput
          · exact hfirst other hother output ((hyields output).mp houtput)
          · exact hdone output houtput other (List.mem_cons_of_mem _ hother))
      refine ⟨last, next', done', ?_, hstage', hlast, fun output => ?_⟩
      · simp [Build.attemptAll, hattempt, hall, outcome, hresult]
      · simp [hmem, hyields, or_assoc, or_left_comm]

end Stages

/-! ## A build -/

/-- What the sources give is in its place, and nothing else has changed but for directories that
were missing. -/
structure Built (settings : Settings) (tree : FileTree) (base target : Location)
    (sources : List Path) (last : FileTree) : Prop where
  found : ∀ source ∈ sources, ∀ result, product .reliable settings source tree = .ok result →
    ∃ row name, tree.find source = .ok (base ++ (row ++ [name]))
  held : ∀ source ∈ sources, ∀ output, Yields settings tree base target source output →
    last.node? output.1 = some (.file output.2)
  changed : ∀ location, last.node? location ≠ tree.node? location →
    (∃ source ∈ sources, ∃ output, Yields settings tree base target source output ∧
      output.1 = location) ∨
    settings.outputDirectory ≠ none ∧ tree.node? location = none ∧
      last.node? location = some .directory

/-- Sources in their places are built as if each were alone. -/
theorem exists_built_of_placed (hwf : tree.WellFormed)
    (hnames : ∀ row name, tree.node? (base ++ (row ++ [name])) = some .directory →
      ¬ OutputName name)
    (htarget : Target settings tree base target) {sources : List Path}
    (hplaced : ∀ source ∈ sources, ∃ row name, Placed tree root base source row name)
    (hapart : sources.Pairwise (Apart settings tree base target)) :
    ∃ last, attemptAll .reliable settings root sources tree =
      (sources.map (outcome settings root tree), last) ∧
      Built settings tree base target sources last := by
  obtain ⟨next, hopens, hstage⟩ := exists_stage htarget hnames
  obtain ⟨last, next', done, hall, hstage, hlast, hmem⟩ :=
    hstage.attemptAll hwf hnames hopens (.inr ⟨rfl, rfl⟩) hplaced hapart (by simp)
  simp only [List.not_mem_nil, false_or] at hmem
  refine ⟨last, hall, ⟨fun source hsource _ _ => ?_, fun source hsource output hyields => ?_,
    fun location hchanged => ?_⟩⟩
  · obtain ⟨row, name, hsource⟩ := hplaced source hsource
    exact ⟨row, name, hsource.find⟩
  · have hdone := (hmem output).mpr ⟨source, hsource, hyields⟩
    obtain rfl | ⟨-, rfl⟩ := hlast
    · exact hstage.held output hdone
    · cases hdone
  · obtain rfl | ⟨rfl, -⟩ := hlast
    · refine (hstage.changed location hchanged).imp_left ?_
      rintro ⟨output, houtput, heq⟩
      obtain ⟨source, hsource, hyields⟩ := (hmem output).mp houtput
      exact ⟨source, hsource, output, hyields, heq⟩
    · exact absurd rfl hchanged

/-- A source that cannot be read gives nothing, and nothing happens. -/
theorem built_of_error {e : BuildError} (h : product .reliable settings source tree = .error e) :
    attemptAll .reliable settings root [source] tree = ([outcome settings root tree source], tree) ∧
      Built settings tree base target [source] tree := by
  have hnone : ∀ other ∈ [source], ∀ result,
      product .reliable settings other tree ≠ .ok result := by
    simp [h]
  refine ⟨?_, fun other hother result hok => absurd hok (hnone other hother result),
    fun other hother output => ?_, fun _ hchanged => absurd rfl hchanged⟩
  · simp [attemptAll, attempt, unit_of_error h, outcome, h]
  · rintro ⟨row, name, code, listing, -, hok, -⟩
    exact absurd hok (hnone other hother _)

theorem discover_of_not_directory (h : ¬ tree.isDirectory path = true) :
    tree.discover path = [path] := by
  unfold FileTree.isDirectory at h
  unfold FileTree.discover
  cases hfind : tree.find path with
  | error e => rfl
  | ok location =>
    have hnode : tree.node? location ≠ some .directory := by simpa [hfind] using h
    cases hfound : tree.node? location with
    | none => simp [hfound]
    | some node =>
      cases node with
      | file content => simp [hfound]
      | directory => exact absurd hfound hnode

theorem product_of_no_file (h : ∀ location content, tree.find path = .ok location →
    tree.node? location ≠ some (.file content)) (settings : Settings) :
    ∃ e, product .reliable settings path tree = .error e := by
  have hread : ∃ e, Disk.reliable.readBytes path tree = .error e tree := by
    unfold Disk.readBytes
    cases hfind : tree.find path with
    | error e => exact ⟨e, rfl⟩
    | ok location =>
      cases hnode : tree.node? location with
      | none => exact ⟨.notFound, by simp [hnode]⟩
      | some node =>
        cases node with
        | file content => exact absurd hnode (h location content hfind)
        | directory => exact ⟨.isDirectory, by simp [hnode]⟩
  obtain ⟨e, he⟩ := hread
  exact ⟨.file e, by simp [product, Disk.readText_of_error he]⟩

/-- The sources that are discovered are built as if each were alone. -/
theorem exists_built (hwf : tree.WellFormed) (hbase : tree.Enters (layoutRoot path tree) base)
    (hnames : ∀ row name, tree.node? (base ++ (row ++ [name])) = some .directory →
      ¬ OutputName name)
    (htarget : Target settings tree base target) :
    (∃ last, attemptAll .reliable settings (layoutRoot path tree) (tree.discover path) tree =
      ((tree.discover path).map (outcome settings (layoutRoot path tree) tree), last) ∧
      Built settings tree base target (tree.discover path) last) ∧
    ∀ source ∈ tree.discover path,
      (attempt .reliable settings (layoutRoot path tree) source tree).1 =
        outcome settings (layoutRoot path tree) tree source := by
  have hsingle : ∀ {source last},
      attemptAll .reliable settings (layoutRoot path tree) [source] tree =
        ([outcome settings (layoutRoot path tree) tree source], last) →
      (attempt .reliable settings (layoutRoot path tree) source tree).1 =
        outcome settings (layoutRoot path tree) tree source := by
    intro source last hall
    simpa [attemptAll] using congrArg Prod.fst hall
  by_cases hdirectory : tree.isDirectory path = true
  · have hroot : layoutRoot path tree = path := if_pos hdirectory
    have hfind := (hroot ▸ hbase).find (FileTree.isDirectory_iff.mp hdirectory).1
    have hplaced : ∀ source ∈ tree.discover path,
        ∃ row name, Placed tree (layoutRoot path tree) base source row name := by
      intro source hsource
      obtain ⟨row, -, hplaced⟩ := placed_of_directory hwf hfind hbase.node hsource
      exact ⟨row, _, hroot.symm ▸ hplaced⟩
    refine ⟨exists_built_of_placed hwf hnames htarget hplaced
      (pairwise_apart hwf hfind hbase.node htarget), fun source hsource => ?_⟩
    obtain ⟨last, hall, -⟩ := exists_built_of_placed hwf hnames htarget
      (List.forall_mem_singleton.mpr (hplaced source hsource)) (List.pairwise_singleton _ source)
    exact hsingle hall
  · have hbuilt : ∃ last, attemptAll .reliable settings (layoutRoot path tree) [path] tree =
        ([outcome settings (layoutRoot path tree) tree path], last) ∧
        Built settings tree base target [path] last := by
      by_cases hfile : ∃ location content, tree.find path = .ok location ∧
          tree.node? location = some (.file content)
      · obtain ⟨location, content, hfind, hnode⟩ := hfile
        obtain ⟨name, hplaced⟩ := placed_of_file hwf hfind hnode hbase
        exact exists_built_of_placed hwf hnames htarget
          (List.forall_mem_singleton.mpr ⟨[], name, hplaced⟩) (List.pairwise_singleton _ path)
      · obtain ⟨e, he⟩ := product_of_no_file
          (fun location content hfind hnode => hfile ⟨location, content, hfind, hnode⟩) settings
        exact ⟨tree, built_of_error he⟩
    rw [discover_of_not_directory hdirectory, List.forall_mem_singleton]
    obtain ⟨last, hall, hbuilt⟩ := hbuilt
    exact ⟨⟨last, hall, hbuilt⟩, hsingle hall⟩

theorem isCompiled_outcome (settings : Settings) (root : Path) (tree : FileTree) (source : Path) :
    (outcome settings root tree source).isCompiled =
      (product .reliable settings source tree).isOk := by
  unfold outcome
  cases product .reliable settings source tree <;> rfl

theorem isFailed_outcome (settings : Settings) (root : Path) (tree : FileTree) (source : Path) :
    (outcome settings root tree source).isFailed =
      !(product .reliable settings source tree).isOk := by
  unfold outcome
  cases product .reliable settings source tree <;> rfl

/-- The notice that nothing was found counts for no unit. -/
theorem countP_notices {sources : List Path} {p : Notice → Bool}
    (h : p (.nothingFound path) = false) :
    (if sources = [] then [.nothingFound path] else
      sources.map (outcome settings root tree)).countP p =
      sources.countP fun source => p (outcome settings root tree source) := by
  by_cases hnil : sources = []
  · simp [hnil, h]
  · rw [if_neg hnil, List.countP_map]
    rfl

theorem isOk_product_iff : (product .reliable settings source tree).isOk = true ↔
    ∃ text code, Disk.reliable.readText source tree = .ok text tree ∧
      compile settings.options source.stem text = .ok code := by
  constructor
  · intro h
    cases hproduct : product .reliable settings source tree with
    | error e => simp [hproduct, Except.isOk, Except.toBool] at h
    | ok result =>
      obtain ⟨text, hread, hcompile, -⟩ := product_eq_ok_iff.mp hproduct
      exact ⟨text, _, hread, hcompile⟩
  · rintro ⟨text, code, hread, hcompile⟩
    rw [product_eq_ok_iff.mpr ⟨text, hread, hcompile, rfl⟩]
    rfl

/-- **A build is the independent compilation of its units.** Let the sources be looked for in a tree
in which no directory below the one where the search starts is named like an output file, and let
the output directory, if there is one, be one that can be made and is empty then. What is noted of
each source is what would be noted if it were built alone, and it is compiled exactly when it is a
text that compiles. The code of each such source is afterwards in the file with the name of its
unit, in the directory of the source or in the same place below the output directory, and so is the
listing of its tokens if that is asked for. Nothing else has changed, except that directories are
new where nothing was, if there is an output directory. -/
theorem build_is_unitwise (hwf : tree.WellFormed)
    (hbase : tree.Enters (layoutRoot path tree) base)
    (hnames : ∀ row name, tree.node? (base ++ (row ++ [name])) = some .directory →
      ¬ OutputName name)
    (htarget : Target settings tree base target) :
    ∃ notices last, program .reliable settings path tree = (notices, last) ∧
      notices = (if tree.discover path = [] then [.nothingFound path] else
        (tree.discover path).map fun source =>
          (attempt .reliable settings (layoutRoot path tree) source tree).1) ∧
      (∀ source ∈ tree.discover path, (product .reliable settings source tree).isOk = true ↔
        ∃ text code, Disk.reliable.readText source tree = .ok text tree ∧
          compile settings.options source.stem text = .ok code) ∧
      notices.countP Notice.isCompiled =
        (tree.discover path).countP (fun source => (product .reliable settings source tree).isOk) ∧
      notices.countP Notice.isFailed =
        (tree.discover path).countP (fun source => !(product .reliable settings source tree).isOk) ∧
      (∀ source ∈ tree.discover path, ∀ text code,
        Disk.reliable.readText source tree = .ok text tree →
        compile settings.options source.stem text = .ok code →
        ∃ row name, tree.find source = .ok (base ++ (row ++ [name])) ∧
          last.node? (target ++ (row ++ [source.stem ++ ".vm"])) = some (.file code.toUTF8) ∧
          (settings.traceTokens = true →
            last.node? (target ++ (row ++ [source.stem ++ "T.xml"])) =
              some (.file (tokenListing text)))) ∧
      ∀ location, last.node? location ≠ tree.node? location →
        (∃ source ∈ tree.discover path, ∃ text code row name,
          Disk.reliable.readText source tree = .ok text tree ∧
          compile settings.options source.stem text = .ok code ∧
          tree.find source = .ok (base ++ (row ++ [name])) ∧
          (location = target ++ (row ++ [source.stem ++ ".vm"]) ∨
            settings.traceTokens = true ∧
              location = target ++ (row ++ [source.stem ++ "T.xml"]))) ∨
        settings.outputDirectory ≠ none ∧ tree.node? location = none ∧
          last.node? location = some .directory := by
  obtain ⟨⟨last, hall, hbuilt⟩, halone⟩ := exists_built hwf hbase hnames htarget
  have hnotices : ((tree.discover path).map fun source =>
      (attempt .reliable settings (layoutRoot path tree) source tree).1) =
      (tree.discover path).map (outcome settings (layoutRoot path tree) tree) :=
    List.map_congr_left halone
  rw [hnotices]
  refine ⟨_, last, ?_, rfl, fun source _ => isOk_product_iff, ?_, ?_, ?_, ?_⟩
  · by_cases hnil : tree.discover path = []
    · rw [hnil] at hall
      cases hall
      simp [program, hnil]
    · rw [if_neg hnil, program_of_ne_nil hnil, hall]
  · rw [countP_notices rfl]
    simp only [isCompiled_outcome]
  · rw [countP_notices rfl]
    simp only [isFailed_outcome]
  · intro source hsource text code hread hcompile
    have hproduct := product_eq_ok_iff.mpr ⟨text, hread, hcompile, rfl⟩
    obtain ⟨row, name, hfind⟩ := hbuilt.found source hsource _ hproduct
    have hheld : ∀ output ∈ outputs target row source.stem code
        (if settings.traceTokens then some (tokenListing text) else none),
        last.node? output.1 = some (.file output.2) := fun output houtput =>
      hbuilt.held source hsource output ⟨row, name, code, _, hfind, hproduct, houtput⟩
    refine ⟨row, name, hfind, hheld _ (mem_outputs.mpr (.inl rfl)), fun htrace => ?_⟩
    exact hheld (_, tokenListing text) (mem_outputs.mpr (.inr ⟨_, if_pos htrace, rfl⟩))
  · intro location hchanged
    refine (hbuilt.changed location hchanged).imp_left ?_
    rintro ⟨source, hsource, output, ⟨row, name, code, listing, hfind, hproduct, houtput⟩, rfl⟩
    obtain ⟨text, hread, hcompile, hlisting⟩ := product_eq_ok_iff.mp hproduct
    refine ⟨source, hsource, text, code, row, name, hread, hcompile, hfind, ?_⟩
    obtain rfl | ⟨bytes, rfl, rfl⟩ := mem_outputs.mp houtput
    · exact .inl rfl
    · exact .inr ⟨traceTokens_of_product hproduct, rfl⟩

/-- A source that does not compile, and one in a directory beside it that does. -/
def mixedTree : FileTree where
  entries := [
    (["src"], .directory), (["src", "Bad.jack"], .file "class".toUTF8),
    (["src", "a"], .directory),
    (["src", "a", "A.jack"],
      .file "class A \x7b function void f() \x7b return; \x7d \x7d".toUTF8)]

/-- Token listings are asked for, and the output goes to a new directory. -/
def mixedSettings : Settings where
  traceTokens := true
  outputDirectory := some ⟨"out/vm"⟩

theorem discover_mixedTree :
    mixedTree.discover ⟨"src"⟩ = [⟨"src/Bad.jack"⟩, ⟨"src/a/A.jack"⟩] := by
  have hfind : mixedTree.find ⟨"src"⟩ = .ok ["src"] := by decide +kernel
  have hdepth : mixedTree.depth = 3 := by decide +kernel
  have hnames : mixedTree.namesIn ["src"] = ["Bad.jack", "a"] := by decide +kernel
  rw [FileTree.discover_of_directory hfind (by decide +kernel), hdepth, FileTree.sourcesWithin,
    hnames, List.mergeSort_of_pairwise (by decide +kernel)]
  decide +kernel

theorem target_mixedTree : Target mixedSettings mixedTree ["src"] ["out", "vm"] := by
  have hmake : Disk.reliable.makeDirectories ⟨"out/vm"⟩ mixedTree =
      .ok () ((mixedTree.put ["out"] .directory).put ["out", "vm"] .directory) := by
    with_unfolding_all rfl
  have hsteps : FileTree.steps ⟨"out/vm"⟩ = [.name "out", .name "vm"] := by decide +kernel
  refine target_of_fresh (by decide +kernel) rfl hmake ⟨by decide +kernel, by decide +kernel⟩
    (by decide +kernel) ?_
  simp only [hsteps, List.mem_cons, Component.name.injEq, List.not_mem_nil, or_false]
  rintro name (rfl | rfl) <;> decide +kernel

/-- One unit fails and the other is built in the same place below the new directory. -/
theorem program_mixedTree : ∃ notices last,
    program .reliable mixedSettings ⟨"src"⟩ mixedTree = (notices, last) ∧
    notices.countP Notice.isFailed = 1 ∧
    last.node? ["out", "vm", "a", "A.vm"] =
      some (.file "function A.f 0\npush constant 0\nreturn\n".toUTF8) := by
  have hnames : ∀ row name, mixedTree.node? (["src"] ++ (row ++ [name])) = some .directory →
      ¬ OutputName name := by
    intro row name hnode
    have hall : ∀ entry ∈ mixedTree.entries, ∀ name ∈ entry.1.getLast?, ¬ OutputName name := by
      decide +kernel
    refine hall _ (FileTree.mem_entries hnode (by simp)) name ?_
    rw [← List.append_assoc, List.getLast?_concat]
    rfl
  obtain ⟨notices, last, hprogram, -, -, -, hfailed, hwritten, -⟩ :=
    @build_is_unitwise mixedSettings mixedTree ["src"] ["out", "vm"] ⟨"src"⟩ (by decide +kernel)
      ⟨by decide +kernel, by decide +kernel⟩ hnames target_mixedTree
  rw [discover_mixedTree] at hfailed hwritten
  have hread : Disk.reliable.readText ⟨"src/a/A.jack"⟩ mixedTree =
      .ok "class A \x7b function void f() \x7b return; \x7d \x7d" mixedTree := by
    have hfind : mixedTree.find ⟨"src/a/A.jack"⟩ = .ok ["src", "a", "A.jack"] := by decide +kernel
    have hnode : mixedTree.node? ["src", "a", "A.jack"] =
        some (.file "class A \x7b function void f() \x7b return; \x7d \x7d".toUTF8) := by
      decide +kernel
    exact Disk.readText_of_some (Disk.readBytes_reliable hfind hnode) (by decide +kernel)
  obtain ⟨row, name, hfind, hcode, -⟩ := hwritten ⟨"src/a/A.jack"⟩ (by simp) _
    "function A.f 0\npush constant 0\nreturn\n" hread (by decide +kernel)
  refine ⟨notices, last, hprogram, ?_, ?_⟩
  · rw [hfailed]
    decide +kernel
  · have hplace : mixedTree.find ⟨"src/a/A.jack"⟩ = .ok (["src"] ++ (["a"] ++ ["A.jack"])) := by
      decide +kernel
    have hrow := List.append_cancel_left (Except.ok.inj (hfind.symm.trans hplace))
    obtain rfl := (List.append_inj' hrow rfl).1
    have hstem : (⟨"src/a/A.jack"⟩ : Path).stem = "A" := by decide +kernel
    rw [hstem] at hcode
    exact hcode

end Build

end Jack
