import Jack.File.Path

/-!
# Files

A file tree holds directories and files under locations, which are rows of names from the top. A
path leads from the working directory, or from the top, to a location; every directory on the way
has to exist. There are no links and no owners, and names are texts.

An operation fails where the tree stands in its way, and a `Disk` may let it fail where the tree
does not: a file cannot be read, a directory is not made, a file is not opened for writing, or it
takes a part of its bytes only. What was done before the failure remains. A reliable disk has no
failures of its own. Where paths lead and what is in a directory can always be found out.
-/

namespace Jack

/-- Why an operation on files fails. -/
inductive FileError where
  | notFound | alreadyExists | notDirectory | isDirectory
  /-- The file's bytes are no text. -/
  | notText
  | permissionDenied | noSpace | deviceFailure
  deriving DecidableEq, Repr

/-- The wording of a failure. -/
def FileError.text : FileError → String
  | notFound => "No such file or directory (os error 2)"
  | alreadyExists => "File exists (os error 17)"
  | notDirectory => "Not a directory (os error 20)"
  | isDirectory => "Is a directory (os error 21)"
  | notText => "stream did not contain valid UTF-8"
  | permissionDenied => "Permission denied (os error 13)"
  | noSpace => "No space left on device (os error 28)"
  | deviceFailure => "Input/output error (os error 5)"

/-- The names that lead from the top to a file or directory. -/
abbrev Location := List String

/-- What is found at a location. -/
inductive Node where
  | file (content : ByteArray)
  | directory

instance : DecidableEq Node
  | .file a, .file b =>
    match ByteArray.instDecidableEq a b with
    | isTrue h => isTrue (congrArg Node.file h)
    | isFalse h => isFalse fun heq => h (Node.file.inj heq)
  | .directory, .directory => isTrue rfl
  | .file _, .directory | .directory, .file _ => isFalse nofun

/-- A tree of directories and files. The top is a directory and is not listed. -/
structure FileTree where
  entries : List (Location × Node) := []
  workingDirectory : Location := []

namespace FileTree

/-! ## Locations -/

/-- What is found at a location. -/
def node? (tree : FileTree) (location : Location) : Option Node :=
  if location = [] then some .directory else tree.entries.lookup location

/-- Put a file or directory at a location. -/
def put (tree : FileTree) (location : Location) (node : Node) : FileTree :=
  { tree with entries := (location, node) :: tree.entries.filter fun entry => entry.1 != location }

theorem node?_put (tree : FileTree) {location : Location} (h : location ≠ []) (node : Node)
    (other : Location) : (tree.put location node).node? other =
      if location = other then some node else tree.node? other := by
  unfold node? put
  by_cases hother : other = []
  · simp [hother, h]
  · rw [if_neg hother, if_neg hother, List.lookup_cons]
    by_cases heq : location = other
    · simp [heq]
    · have hne : (other == location) = false := by simpa using Ne.symm heq
      rw [hne, if_neg heq]
      simp only
      induction tree.entries with
      | nil => rfl
      | cons e es ih =>
        by_cases he : e.1 = location
        · have hk : (other == e.1) = false := by simpa [he] using Ne.symm heq
          rw [List.filter_cons_of_neg (by simp [he]), ih, List.lookup_cons, hk]
        · rw [List.filter_cons_of_pos (by simp [he]), List.lookup_cons, List.lookup_cons, ih]

/-- Where a component leads from a location. -/
def follow (location : Location) : Component → Location
  | .root => []
  | .here => location
  | .up => location.dropLast
  | .name n => location ++ [n]

/-- Where components lead from a location. Each is looked for in a directory. -/
def walk (tree : FileTree) : Location → List Component → Except FileError Location
  | location, [] => .ok location
  | location, component :: components =>
    match tree.node? location with
    | some .directory => tree.walk (follow location component) components
    | some (.file _) => .error .notDirectory
    | none => .error .notFound

/-- The way that a path describes. Every dot on it has to be in a directory. -/
def steps (path : Path) : List Component :=
  path.pieces.filterMap fun piece => if piece = "." then some .here else Path.inner? piece

/-- Where a path leads, if all but the last of its steps exist. -/
def locate (tree : FileTree) (path : Path) (way : List Component) : Except FileError Location :=
  if path.text = "" then .error .notFound
  else tree.walk (if path.isAbsolute then [] else tree.workingDirectory) way

/-- Where a path leads. A slash at its end calls for a directory. -/
def find (tree : FileTree) (path : Path) : Except FileError Location :=
  let slash := if path.text.toList.getLast? = some '/' then [Component.here] else []
  tree.locate path (steps path ++ slash)

/-- Whether a path leads to a directory. -/
def isDirectory (tree : FileTree) (path : Path) : Bool :=
  match tree.find path with
  | .ok location => tree.node? location = some .directory
  | .error _ => false

end FileTree

/-! ## Disks -/

/-- How a disk lets a write fail. -/
inductive WriteFailure where
  /-- The file is not opened. -/
  | refused (e : FileError)
  /-- The file is opened, which makes or empties it, and takes this number of bytes. -/
  | broken (taken : Nat) (e : FileError)

/-- What keeps a tree. The failures of its own may depend on the tree and on the path. -/
structure Disk where
  /-- A file that exists is not read. -/
  readFailure? : FileTree → Path → Option FileError := fun _ _ => none
  /-- A directory for which there is a place is not made. -/
  makeFailure? : FileTree → Path → Option FileError := fun _ _ => none
  /-- A file for which there is a place is not written as a whole. -/
  writeFailure? : FileTree → Path → ByteArray → Option WriteFailure := fun _ _ _ => none

/-- A computation on a file tree. A failure leaves a tree behind too. -/
abbrev Files := EStateM FileError FileTree

namespace Disk

/-- A disk without failures of its own. -/
def reliable : Disk := {}

variable (disk : Disk)

/-! ## Operations -/

/-- The bytes of a file. -/
def readBytes (path : Path) : Files ByteArray := fun tree =>
  match tree.find path with
  | .error e => .error e tree
  | .ok location =>
    match tree.node? location with
    | some (.file content) =>
      match disk.readFailure? tree path with
      | some e => .error e tree
      | none => .ok content tree
    | some .directory => .error .isDirectory tree
    | none => .error .notFound tree

/-- The text of a file. -/
def readText (path : Path) : Files String := do
  match String.fromUTF8? (← disk.readBytes path) with
  | some text => return text
  | none => throw .notText

/-- Make or replace a file. -/
def writeBytes (path : Path) (content : ByteArray) : Files Unit := fun tree =>
  match tree.find path with
  | .error e => .error e tree
  | .ok location =>
    match tree.node? location with
    | some .directory => .error .isDirectory tree
    | _ =>
      match disk.writeFailure? tree path content with
      | some (.refused e) => .error e tree
      | some (.broken taken e) => .error e (tree.put location (.file (content.extract 0 taken)))
      | none => .ok () (tree.put location (.file content))

/-- Make a directory in an existing one. -/
def makeDirectory (path : Path) : Files Unit := fun tree =>
  match tree.locate path (FileTree.steps path) with
  | .error e => .error e tree
  | .ok location =>
    match tree.node? location with
    | some _ => .error .alreadyExists tree
    | none =>
      match disk.makeFailure? tree path with
      | some e => .error e tree
      | none => .ok () (tree.put location .directory)

/-- Make a directory, or find that it is there already. -/
def ensureDirectory (path : Path) : Files Unit := fun tree =>
  match disk.makeDirectory path tree with
  | .ok _ tree => .ok () tree
  | .error e tree => if tree.isDirectory path then .ok () tree else .error e tree

/-- Make the first of the directories, and before it, where they are missing, those that follow it
in the list, each of which is the parent of the one before. -/
def ensureChain : List Path → Files Unit
  | [] => pure ()
  | path :: parents => fun tree =>
    if path.text = "" then .ok () tree
    else
      match disk.ensureDirectory path tree with
      | .error .notFound tree =>
        (do ensureChain parents; disk.ensureDirectory path : Files Unit) tree
      | result => result

/-- Make a directory and all that are missing above it. -/
def makeDirectories (path : Path) : Files Unit := disk.ensureChain path.ancestors

end Disk

end Jack
