import Jack.File.Tree
import Jack.Run
import Jack.Settings

/-!
# Building a program

The sources of a program are found under a path and compiled one by one, each as a unit of its own.
A unit that fails is noted and the others go on. The code of a unit goes to a file beside its
source, or to the same place below the output directory. All files are on one disk.
-/

namespace Jack

/-! ## Sources -/

/-- Whether a file name is that of a source. -/
def isSourceName (name : String) : Bool := (Path.splitName name).2 == some "jack"

namespace FileTree

/-- The names in a directory, as they are listed. -/
def namesIn (tree : FileTree) (directory : Location) : List String :=
  tree.entries.filterMap fun (location, _) =>
    if location.dropLast = directory then location.getLast? else none

/-- The order of names in a directory. -/
def nameLE (a b : String) : Bool := !decide (b < a)

/-- The sources under a name in the directory that a path leads to: what there is below a directory,
or the file itself. -/
def sourcesAt (tree : FileTree) (below : Location → Path → List Path) (directory : Location)
    (path : Path) (name : String) : List Path :=
  match tree.node? (directory ++ [name]) with
  | some .directory => below (directory ++ [name]) (path.join ⟨name⟩)
  | some (.file _) => if isSourceName name then [path.join ⟨name⟩] else []
  | none => []

/-- The sources in the directory that a path leads to, and in the directories below it as deep as
the bound allows. What is in a directory is taken in the order of its names. -/
def sourcesWithin (tree : FileTree) : Nat → Location → Path → List Path
  | 0, _, _ => []
  | bound + 1, directory, path =>
    ((tree.namesIn directory).mergeSort nameLE).flatMap
      (tree.sourcesAt (tree.sourcesWithin bound) directory path)

/-- How deep the tree is. -/
def depth (tree : FileTree) : Nat :=
  tree.entries.foldl (fun depth entry => max depth entry.1.length) 0

/-- The sources under a path: all those in a directory, at any depth; a path that is no directory
is taken for a source. -/
def discover (tree : FileTree) (path : Path) : List Path :=
  match tree.find path with
  | .ok top =>
    match tree.node? top with
    | some .directory => tree.sourcesWithin tree.depth top path
    | _ => [path]
  | .error _ => [path]

end FileTree

/-! ## Units -/

/-- Why a unit could not be built. -/
inductive BuildError where
  | compile (e : Error)
  | file (e : FileError)
  | settings
  deriving DecidableEq, Repr

/-- The message of a failure. -/
def BuildError.message : BuildError → String
  | compile e => e.message
  | file e => "io error: " ++ e.text
  | settings => "config error"

/-- A computation on a file tree that builds something. -/
abbrev Build := EStateM BuildError FileTree

namespace Build

/-- An operation on files as a step of a build. -/
def files {α : Type} (operation : Files α) : Build α := fun tree =>
  match operation tree with
  | .ok a tree => .ok a tree
  | .error e tree => .error (.file e) tree

/-- The code of a unit, and the bytes of its token listing if that is asked for. -/
def compileUnit (settings : Settings) (unit source : String) :
    Except Error String × Option ByteArray :=
  if settings.traceTokens then
    let (result, trace) := compileWith settings.options TokenTrace.sink
      { outlet := Outlet.empty none } unit source
    (result, some trace.outlet.written)
  else
    (compile settings.options unit source, none)

/-- The directory for the output of a source found below a root. -/
def outputDirectory (settings : Settings) (root source : Path) : Path :=
  let directory := source.parent?.getD ⟨""⟩
  match settings.outputDirectory with
  | some output => output.join ((directory.relativeTo? root).getD ⟨""⟩)
  | none => directory

/-- Compile a source and write its output files. The answer is the path of the code. -/
def unit (disk : Disk) (settings : Settings) (root source : Path) : Build Path := do
  let text ← files (disk.readText source)
  match compileUnit settings source.stem text with
  | (.error e, _) => throw (.compile e)
  | (.ok code, listing) =>
    let directory := outputDirectory settings root source
    unless directory.text = "" do
      files (disk.makeDirectories directory)
    let output := directory.join ⟨source.stem ++ ".vm"⟩
    files (disk.writeBytes output code.toUTF8)
    if let some bytes := listing then
      files (disk.writeBytes (directory.join ⟨source.stem ++ "T.xml"⟩) bytes)
    return output

/-! ## Programs -/

/-- What is noted during a build. -/
inductive Notice where
  | compiled (source output : Path)
  | failed (source : Path) (e : BuildError)
  | nothingFound (path : Path)
  deriving DecidableEq, Repr

/-- The notice as a log shows it, with its level in front. -/
def Notice.text : Notice → String
  | compiled source output => "INFO compiled " ++ source.text ++ " -> " ++ output.text
  | failed source e => "ERROR " ++ source.text ++ ": " ++ e.message
  | nothingFound path => "WARN no .jack files found in " ++ path.text

/-- Whether the notice is of a compiled unit. -/
def Notice.isCompiled : Notice → Bool
  | compiled _ _ => true
  | _ => false

/-- Whether the notice is of a failed unit. -/
def Notice.isFailed : Notice → Bool
  | failed _ _ => true
  | _ => false

/-- Build a source and note what became of it. -/
def attempt (disk : Disk) (settings : Settings) (root source : Path) (tree : FileTree) :
    Notice × FileTree :=
  match unit disk settings root source tree with
  | .ok output tree => (.compiled source output, tree)
  | .error e tree => (.failed source e, tree)

/-- Build sources one after the other. -/
def attemptAll (disk : Disk) (settings : Settings) (root : Path) :
    List Path → FileTree → List Notice × FileTree
  | [], tree => ([], tree)
  | source :: sources, tree =>
    let (notice, tree) := attempt disk settings root source tree
    let (notices, tree) := attemptAll disk settings root sources tree
    (notice :: notices, tree)

/-- The directory below which the layout of the sources is kept. -/
def layoutRoot (path : Path) (tree : FileTree) : Path :=
  if tree.isDirectory path then path else path.parent?.getD path

/-- Build all sources under a path. -/
def program (disk : Disk) (settings : Settings) (path : Path) (tree : FileTree) :
    List Notice × FileTree :=
  match tree.discover path with
  | [] => ([.nothingFound path], tree)
  | sources => attemptAll disk settings (layoutRoot path tree) sources tree

end Build

/-! ## Reading settings -/

/-- The settings in a file. -/
def loadSettings (disk : Disk) (path : Path) : Build Settings := fun tree =>
  match disk.readBytes path tree with
  | .error .isDirectory tree => .error .settings tree
  | .error e tree => .error (.file e) tree
  | .ok bytes tree =>
    match (String.fromUTF8? bytes).bind Settings.ofText? with
    | some settings => .ok settings tree
    | none => .error .settings tree

end Jack
