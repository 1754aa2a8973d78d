import Jack.Build
import Jack.Compare

/-!
# The command line

Three commands: build a program, print the tokens of a source, compare two files. A command answers
with what it prints and a status: 0 for success, 1 for a failure or a difference, 64 if it was not
called properly.
-/

namespace Jack

/-- What a command prints, and its status. -/
structure Reply where
  status : Nat
  output : String
  deriving DecidableEq, Repr

/-- A command with its arguments. -/
inductive Command where
  | build (path : Path) (settings : Option Path)
  | tokens (path : Path)
  | compare (left right : Path)
  deriving DecidableEq, Repr

namespace Command

/-- The command that arguments stand for. Arguments too many are ignored. -/
def ofArguments? : List String → Option Command
  | "build" :: path :: settings :: _ => some (build ⟨path⟩ (some ⟨settings⟩))
  | ["build", path] => some (build ⟨path⟩ none)
  | "tokens" :: path :: _ => some (tokens ⟨path⟩)
  | "cmp" :: left :: right :: _ => some (compare ⟨left⟩ ⟨right⟩)
  | _ => none

/-- How the program is to be called. -/
def usage : String :=
  "jackc v0.1.0\n" ++
  "\n" ++
  "usage: jackc CMD [ARGS]\n" ++
  "\n" ++
  "commands:\n" ++
  "    build   Compile a source file, or every source file in a directory\n" ++
  "    tokens  Print the tokens of a source file\n" ++
  "    cmp     Compare two files line by line\n" ++
  "\n" ++
  "examples:\n" ++
  "    jackc build Square/\n" ++
  "    jackc build Square/ jackc.yaml\n" ++
  "    jackc tokens Square/Main.jack\n" ++
  "    jackc cmp Square/Main.vm expected/Main.vm\n" ++
  "\n"

/-! ## Token tables -/

/-- A text brought to a width with blanks in front. -/
def padLeft (width : Nat) (text : String) : String :=
  String.ofList (List.replicate (width - text.length) ' ') ++ text

/-- A text brought to a width with blanks behind. -/
def padRight (width : Nat) (text : String) : String :=
  text ++ String.ofList (List.replicate (width - text.length) ' ')

/-- The row of a token. The end of the input shows no text. -/
def tokenRow (token : Token) : String :=
  let row := padLeft 4 (toString token.line) ++ "   " ++ padRight 16 token.kind.tag.text
  if token.isEof then row ++ "\n" else row ++ " \"" ++ token.kind.lexeme ++ "\"\n"

/-- The rows of the tokens up to the first problem. -/
def tokenRows (answers : List Scanned) : String :=
  answers.foldl
    (fun rows answer =>
      match answer with
      | .ok token => rows ++ tokenRow token
      | .error _ => rows)
    ""

/-- The tokens of a source as a table. A problem ends it. -/
def tokenTable (source : String) : Reply :=
  let answers := upToProblem (scan source)
  { status := if answers.all Except.isOk then 0 else 1
    output := "line | kind            | lexeme\n" ++ tokenRows answers }

/-! ## Commands -/

/-- Compare the texts of two files. -/
def compareFiles (disk : Disk) (left right : Path) : Files Comparison := do
  return compareTexts (← disk.readText left) (← disk.readText right)

/-- What is printed about a comparison. -/
def comparisonReply (left right : Path) : Comparison → Reply
  | .identical => ⟨0, left.text ++ " and " ++ right.text ++ " are identical\n"⟩
  | .differAt line =>
    ⟨1, left.text ++ " and " ++ right.text ++ " differ at line " ++ toString line ++ "\n"⟩

/-- Build a program and tell whether all its units were built. -/
def buildReply (disk : Disk) (settings : Settings) (path : Path) : Build Reply := fun tree =>
  let (notices, tree) := Build.program disk settings path tree
  .ok ⟨if notices.any Build.Notice.isFailed then 1 else 0, ""⟩ tree

/-- Carry out a command. -/
def perform (disk : Disk) : Command → Build Reply
  | build path none => buildReply disk {} path
  | build path (some file) => do buildReply disk (← loadSettings disk file) path
  | tokens path => do return tokenTable (← Build.files (disk.readText path))
  | compare left right => do
    return comparisonReply left right (← Build.files (compareFiles disk left right))

end Command

/-- Carry out the command that the arguments stand for. An error on the way, returned for the user
to see, has status 1 and prints nothing. -/
def commandLine (disk : Disk) (arguments : List String) (tree : FileTree) :
    Reply × Option BuildError × FileTree :=
  match Command.ofArguments? arguments with
  | none => (⟨64, Command.usage⟩, none, tree)
  | some command =>
    match command.perform disk tree with
    | .ok reply tree => (reply, none, tree)
    | .error e tree => (⟨1, ""⟩, some e, tree)

end Jack
