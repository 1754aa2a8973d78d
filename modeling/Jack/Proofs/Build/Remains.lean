import Jack.Proofs.Build.Unit
import Jack.Proofs.File.Discovery

/-!
# What a failed unit leaves behind

A unit that fails in its first half, because the source cannot be read, is no text or does not
compile, leaves the tree as it was. A failure in its second half leaves what was done before it, and
a write that breaks off leaves the bytes that it has written. The steps bound what that can be
(`remains_of_unit`): directories where nothing was, on the way to the output directory, the code if
it is the listing that cannot be written, and the beginning of the file whose write broke off.

A build takes its units one after the other (`attemptAll_append`), so this holds of each unit in
its place.
-/

namespace Jack

namespace Build

variable {disk : Disk} {settings : Settings} {root source path : Path} {tree tree' : FileTree}
  {code : String} {listing : Option ByteArray} {e : BuildError}

/-! ## What remains of one unit -/

section Remains

variable (disk : Disk) (settings : Settings) (root source : Path) (tree tree' : FileTree)

/-- What a failed unit may have left at a location where something has changed. -/
inductive Remnant (location : Location) : Prop
  /-- A directory where nothing was, to which the output directory or a parent of it leads. -/
  | directory (hnone : tree.node? location = none)
      (hnode : tree'.node? location = some .directory)
      (hway : ∃ path ∈ (outputDirectory settings root source).ancestors, tree'.Enters path location)
  /-- The code, if it is the listing that cannot be written. -/
  | code {code bytes between error} (hproduct : product disk settings source tree =
        .ok (code, some bytes))
      (hfind : tree'.find (codePath settings root source) = .ok location)
      (hnode : tree'.node? location = some (.file code.toUTF8))
      (hlisting : disk.writeBytes (listingPath settings root source) bytes between =
        .error error tree')
  /-- The beginning of the code, if writing it breaks off. -/
  | brokenCode {code listing taken} (hproduct : product disk settings source tree =
        .ok (code, listing))
      (hfind : tree'.find (codePath settings root source) = .ok location)
      (hnode : tree'.node? location = some (.file (code.toUTF8.extract 0 taken)))
      (hbreaks : disk.BreaksOff (codePath settings root source) code.toUTF8 taken)
  /-- The beginning of the listing, if writing it breaks off. -/
  | brokenListing {code bytes taken} (hproduct : product disk settings source tree =
        .ok (code, some bytes))
      (hfind : tree'.find (listingPath settings root source) = .ok location)
      (hnode : tree'.node? location = some (.file (bytes.extract 0 taken)))
      (hbreaks : disk.BreaksOff (listingPath settings root source) bytes taken)

/-- What a unit that fails may leave. No directory is lost. A source that cannot be read, is no text
or does not compile leaves the tree as it was. Otherwise the changes are remnants of the unit. -/
structure Remains : Prop where
  toExtends : tree.Extends tree'
  unproduced : ∀ e, product disk settings source tree = .error e → tree' = tree
  changed : ∀ location, tree'.node? location ≠ tree.node? location →
    Remnant disk settings root source tree tree' location

end Remains

/-- Directories have been made, and what has changed since are remnants. -/
theorem Remains.of_grown {made : FileTree}
    (hproduct : product disk settings source tree = .ok (code, listing))
    (hgrown : tree.Grown (outputDirectory settings root source).ancestors made)
    (hextends : made.Extends tree')
    (hsince : ∀ location, tree'.node? location ≠ made.node? location →
      Remnant disk settings root source tree tree' location) :
    Remains disk settings root source tree tree' where
  toExtends := hgrown.toExtends.trans hextends
  unproduced e he := by simp [hproduct] at he
  changed location hne := by
    by_cases hsame : tree'.node? location = made.node? location
    · rw [hsame] at hne
      obtain ⟨hnone, hdirectory, path, hpath, henters⟩ := hgrown.changed location hne
      exact .directory hnone (hsame.trans hdirectory) ⟨path, hpath, henters.mono hextends⟩
    · exact hsince location hsame

theorem remains_of_unit (h : unit disk settings root source tree = .error e tree') :
    Remains disk settings root source tree tree' := by
  cases hproduct : product disk settings source tree with
  | error error =>
    rw [unit_of_error hproduct] at h
    cases h
    exact ⟨.refl _, fun _ _ => rfl, fun _ hne => absurd rfl hne⟩
  | ok result =>
    obtain ⟨code, listing⟩ := result
    have hdelivery := delivery_deliver disk settings root source code listing tree
    rw [← unit_of_ok hproduct, h] at hdelivery
    cases hdelivery with
    | noDirectory hmake =>
      exact .of_grown hproduct (Disk.grown_of_error hmake) (.refl _) fun _ hne => absurd rfl hne
    | noCode hmake hcode =>
      have hgrown := Disk.grown_of_ok hmake
      obtain rfl | ⟨taken, hbreaks, hcode⟩ := Disk.written_of_error hcode
      · exact .of_grown hproduct hgrown (.refl _) fun _ hne => absurd rfl hne
      · refine .of_grown hproduct hgrown hcode.toExtends fun location hne => ?_
        obtain ⟨hfind, hnode⟩ := hcode.changed location hne
        exact .brokenCode hproduct hfind hnode hbreaks
    | @noListing error made written left bytes hmake hcode hasked hlisting =>
      subst hasked
      have hgrown := Disk.grown_of_ok hmake
      have hcode := Disk.written_of_ok hcode
      -- the code is written in full, and what has changed after that is in the listing
      have hlast : written.Extends tree' ∧ ∀ location,
          tree'.node? location ≠ written.node? location →
            Remnant disk settings root source tree tree' location := by
        obtain rfl | ⟨taken, hbreaks, hlast⟩ := Disk.written_of_error hlisting
        · exact ⟨.refl _, fun _ hne => absurd rfl hne⟩
        · refine ⟨hlast.toExtends, fun location hne => ?_⟩
          obtain ⟨hfind, hnode⟩ := hlast.changed location hne
          exact .brokenListing hproduct hfind hnode hbreaks
      obtain ⟨hextends, hlast⟩ := hlast
      refine .of_grown hproduct hgrown (hcode.toExtends.trans hextends) fun location hne => ?_
      by_cases hsame : tree'.node? location = written.node? location
      · obtain ⟨hfind, hnode⟩ := hcode.changed location (hsame ▸ hne)
        exact .code hproduct (hextends.find hfind) (hsame.trans hnode) hlisting
      · exact hlast location hsame

/-- Without a listing, and unless the write of the code breaks off, a failed unit neither makes nor
changes a file. -/
theorem Remains.file_iff (h : Remains disk settings root source tree tree')
    (htrace : settings.traceTokens = false)
    (hwhole : ∀ content taken, ¬ disk.BreaksOff (codePath settings root source) content taken)
    (location : Location) (content : ByteArray) :
    tree'.node? location = some (.file content) ↔ tree.node? location = some (.file content) := by
  by_cases hsame : tree'.node? location = tree.node? location
  · rw [hsame]
  · cases h.changed location hsame with
    | directory hnone hnode => simp [hnone, hnode]
    | code hproduct | brokenListing hproduct => simp [traceTokens_of_product hproduct] at htrace
    | brokenCode hproduct hfind hnode hbreaks => exact absurd hbreaks (hwhole _ _)

/-! ## What remains in a build -/

theorem attemptAll_append (before after : List Path) (tree : FileTree) :
    attemptAll disk settings root (before ++ after) tree =
      ((attemptAll disk settings root before tree).1 ++
        (attemptAll disk settings root after (attemptAll disk settings root before tree).2).1,
      (attemptAll disk settings root after (attemptAll disk settings root before tree).2).2) := by
  induction before generalizing tree with
  | nil => rfl
  | cons source before ih => simp [attemptAll, ih]

theorem length_attemptAll (sources : List Path) (tree : FileTree) :
    (attemptAll disk settings root sources tree).1.length = sources.length := by
  induction sources generalizing tree with
  | nil => rfl
  | cons source sources ih => simp [attemptAll, ih]

/-- A source whose token listing cannot be written, since a directory has its name. -/
def blockedTree : FileTree where
  entries := [
    (["Main.jack"], .file "class Main \x7b function void main() \x7b return; \x7d \x7d".toUTF8),
    (["MainT.xml"], .directory)]

theorem discover_blockedTree : blockedTree.discover ⟨"."⟩ = [⟨"./Main.jack"⟩] := by
  have hfind : blockedTree.find ⟨"."⟩ = .ok [] := by decide +kernel
  have hdepth : blockedTree.depth = 1 := by decide +kernel
  have hnames : blockedTree.namesIn [] = ["Main.jack", "MainT.xml"] := by decide +kernel
  rw [FileTree.discover_of_directory hfind (by decide +kernel), hdepth, FileTree.sourcesWithin,
    hnames, List.mergeSort_of_pairwise (by decide +kernel)]
  decide +kernel

theorem program_blockedTree (disk : Disk) (settings : Settings) :
    program disk settings ⟨"."⟩ blockedTree =
      attemptAll disk settings ⟨"."⟩ [⟨"./Main.jack"⟩] blockedTree := by
  rw [program_of_ne_nil (by simp [discover_blockedTree]), discover_blockedTree]
  have hroot : layoutRoot ⟨"."⟩ blockedTree = ⟨"."⟩ := by decide +kernel
  rw [hroot]

/-- A disk that is full after some bytes leaves a file of that length. -/
example : (program { writeFailure? := fun _ _ _ => some (.broken 8 .noSpace) } {} ⟨"."⟩
    blockedTree).2.node? ["Main.vm"] = some (.file "function".toUTF8) := by
  rw [program_blockedTree]
  decide +kernel

end Build

end Jack
