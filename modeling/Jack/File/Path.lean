import Jack.Text.Split

/-!
# Paths

A path is kept as it was written, because it is shown that way. Its components are what stands
between slashes: doubled and trailing slashes make none, and a single dot makes one only at the
start of a relative path. Parent, file name and extension go by the components.
-/

namespace Jack

/-- A path as it is written. -/
structure Path where
  text : String
  deriving DecidableEq, Repr

/-- A component of a path. -/
inductive Component where
  | root
  | here
  | up
  | name (n : String)
  deriving DecidableEq, Repr

/-- How a component is written. -/
def Component.text : Component → String
  | root => "/"
  | here => "."
  | up => ".."
  | name n => n

namespace Path

/-! ## Components -/

/-- Whether the path starts at the root. -/
def isAbsolute (path : Path) : Bool := path.text.toList.head? == some '/'

/-- What stands between the slashes. -/
def pieces (path : Path) : List String := (Text.split '/' path.text.toList).map String.ofList

/-- The component that a piece makes, if it makes one, wherever it stands after the first place. -/
def inner? (piece : String) : Option Component :=
  if piece = "" || piece = "." then none
  else if piece = ".." then some .up
  else some (.name piece)

/-- The component that the first piece makes, if it makes one. -/
def first? (path : Path) (piece : String) : Option Component :=
  if piece = "" then if path.isAbsolute then some .root else none
  else if piece = "." then some .here
  else inner? piece

/-- The pieces, each with the component it makes. -/
def parsed (path : Path) : List (String × Option Component) :=
  match path.pieces with
  | [] => []
  | piece :: pieces => (piece, path.first? piece) :: pieces.map fun p => (p, inner? p)

/-- The components of a path. -/
def components (path : Path) : List Component := path.parsed.filterMap Prod.snd

/-- The path written with these pieces. -/
def ofPieces (pieces : List (String × Option Component)) : Path :=
  match pieces with
  | [(_, some .root)] => ⟨"/"⟩
  | pieces => ⟨"/".intercalate (pieces.map Prod.fst)⟩

/-- The path without its last component. The root and the empty path have none. -/
def parent? (path : Path) : Option Path :=
  match path.parsed.reverse.dropWhile fun piece => piece.2.isNone with
  | [] => none
  | (_, some .root) :: _ => none
  | _ :: before => some (ofPieces (before.dropWhile fun piece => piece.2.isNone).reverse)

/-- The path, its parent, the parent of that, and so on, as many as the bound allows. -/
def ancestorsWithin : Nat → Path → List Path
  | 0, path => [path]
  | bound + 1, path =>
    path :: match path.parent? with
      | some parent => ancestorsWithin bound parent
      | none => []

/-- The path, its parent, the parent of that, and so on. -/
def ancestors (path : Path) : List Path := ancestorsWithin path.text.length path

/-! ## File names -/

/-- The last component, if it is a name. -/
def fileName? (path : Path) : Option String :=
  match path.components.getLast? with
  | some (.name n) => some n
  | _ => none

/-- A file name split at its last dot into stem and extension. A dot in front starts no
extension. -/
def splitName (name : String) : String × Option String :=
  let reversed := name.toList.reverse
  match reversed.dropWhile (· != '.') with
  | _ :: before =>
    if before.isEmpty then (name, none)
    else
      (String.ofList before.reverse, some (String.ofList (reversed.takeWhile (· != '.')).reverse))
  | [] => (name, none)

/-- The file name without its extension; empty if the path has no file name. -/
def stem (path : Path) : String :=
  match path.fileName? with
  | some name => (splitName name).1
  | none => ""

/-! ## Joining -/

/-- A path below a directory. An absolute path stays as it is. -/
def join (directory path : Path) : Path :=
  if path.isAbsolute || directory.text = "" then path
  else if directory.text.toList.getLast? = some '/' then ⟨directory.text ++ path.text⟩
  else ⟨directory.text ++ "/" ++ path.text⟩

/-- A row of names below a directory. -/
def descend (directory : Path) (names : List String) : Path :=
  names.foldl (fun path name => path.join ⟨name⟩) directory

/-- What is left of a path below a directory. -/
def relativeTo? (path directory : Path) : Option Path :=
  if directory.components.isPrefixOf path.components then
    some ⟨"/".intercalate
      ((path.components.drop directory.components.length).map Component.text)⟩
  else
    none

end Path

end Jack
