import Jack.CommandLine

/-!
# The program

Reads the files that a command may look at into a file tree, carries the command out on the tree,
and writes back what has changed. All decisions are made in `commandLine`.
-/

namespace Jack.Main

/-- The system's name of a location. -/
def systemName (location : Location) : String := "/" ++ "/".intercalate location

/-- Add what the system holds at a location, and, if asked to, all that is below it. -/
partial def load (deep : Bool) (location : Location) (tree : FileTree) : IO FileTree := do
  let path := (← IO.currentDir) / systemName location
  if ← path.isDir then
    let mut tree := tree
    unless location.isEmpty do
      tree := tree.put location .directory
    if deep then
      for entry in ← path.readDir do
        tree ← load true (location ++ [entry.fileName]) tree
    return tree
  else if ← path.pathExists then
    return tree.put location (.file (← IO.FS.readBinFile path))
  else
    return tree

/-- Add what a path leads to, and the directories on the way. -/
def loadPath (tree : FileTree) (path : Path) : IO FileTree := do
  let mut location := if path.isAbsolute then [] else tree.workingDirectory
  let mut tree := tree
  for component in FileTree.steps path do
    location := FileTree.follow location component
    tree ← load false location tree
  load true location tree

/-- The tree that a command works on. -/
def loadFor (command : Command) (tree : FileTree) : IO FileTree :=
  match command with
  | .tokens path => loadPath tree path
  | .compare left right => do loadPath (← loadPath tree left) right
  | .build path none => loadPath tree path
  | .build path (some file) => do
    let tree ← loadPath (← loadPath tree path) file
    match loadSettings .reliable file tree with
    | .ok settings tree =>
      match settings.outputDirectory with
      | some directory => loadPath tree directory
      | none => return tree
    | .error _ tree => return tree

/-- Write back the files and directories that were not there before or have changed. -/
def store (before after : FileTree) : IO Unit := do
  let changed := after.entries.filter fun (location, node) => before.node? location != some node
  for (location, node) in changed.mergeSort fun a b => a.1.length ≤ b.1.length do
    match node with
    | .directory => IO.FS.createDirAll (systemName location)
    | .file content => IO.FS.writeBinFile (systemName location) content

/-- The tree that holds the working directory and those above it. -/
def workingTree : IO FileTree := do
  let names := ((← IO.currentDir).toString.splitOn "/").filter (· ≠ "")
  let above := (List.range names.length).map fun n => names.take (n + 1)
  return above.foldl (fun tree location => tree.put location .directory)
    { workingDirectory := names }

/-- Carry out the command that the arguments stand for, and answer with its status. -/
def run (arguments : List String) : IO UInt32 := do
  let tree ← match Command.ofArguments? arguments with
    | some command => loadFor command (← workingTree)
    | none => pure {}
  let (reply, failure, after) := commandLine .reliable arguments tree
  store tree after
  IO.print reply.output
  if let some e := failure then
    IO.eprintln e.message
  return reply.status.toUInt32

end Jack.Main

/-- The program. -/
def main (arguments : List String) : IO UInt32 := Jack.Main.run arguments
