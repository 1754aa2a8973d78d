import Jack.Document.Node
import Jack.File.Path
import Jack.Pass.Class

/-!
# Settings files

A settings file is a document with a mapping at its top, in which every key may be left out. Keys
that mean nothing here are skipped; a key with a meaning may not be given twice. What is empty
stands for a mapping without entries, or for no value.
-/

namespace Jack

/-- How the units of a program are built. -/
structure Settings where
  options : Options := {}
  /-- Write the tokens of each unit to a file as well. -/
  traceTokens : Bool := false
  /-- Where output files go; beside the sources when not given. -/
  outputDirectory : Option Path := none
  deriving DecidableEq, Repr

namespace Document

/-! ## The meaning of nodes -/

/-- The text of a scalar. -/
def text? (document : Document) (node : Node) : Option String :=
  match document.resolve node with
  | .scalar _ _ text => some text
  | _ => none

/-- The entries of a mapping, which have scalars for keys. An empty plain scalar has none. -/
def fields? (document : Document) (node : Node) : Option (List (String × Node)) :=
  match document.resolve node with
  | .mapping entries => entries.mapM fun (key, value) => do return (← document.text? key, value)
  | .scalar .plain _ "" => some []
  | _ => none

/-- The words for truth values. -/
def truthWords : List (String × Bool) :=
  [("true", true), ("True", true), ("TRUE", true), ("false", false), ("False", false),
    ("FALSE", false)]

/-- The words for no value. -/
def nullWords : List String := ["null", "Null", "NULL", "~"]

/-- A truth value: a word that is plain, or in literal form with the tag for truth values. -/
def boolean? (document : Document) (node : Node) : Option Bool :=
  match document.resolve node with
  | .scalar .plain _ text => truthWords.lookup text
  | .scalar .literal (some "!!bool") text => truthWords.lookup text
  | _ => none

/-- A text, or none if nothing or a word for that stands plainly. The tag for no value calls for
such a word, and any other tag makes a text of it. -/
def optionalText? (document : Document) (node : Node) : Option (Option String) :=
  match document.resolve node with
  | .scalar .plain none text =>
    some (if text = "" || nullWords.contains text then none else some text)
  | .scalar .plain (some "!!null") text => if nullWords.contains text then some none else none
  | .scalar _ _ text => some (some text)
  | _ => none

end Document

namespace Settings

/-- The value for a key that is given at most once, read by the given function; the default if the
key is not there. -/
def lookup? {α : Type} (fields : List (String × Document.Node)) (key : String)
    (read : Document.Node → Option α) (default : α) : Option α :=
  match fields.filter fun field => field.1 == key with
  | [] => some default
  | [field] => read field.2
  | _ => none

/-- The options that a node stands for. -/
def options? (document : Document) (node : Document.Node) : Option Options := do
  let fields ← document.fields? node
  return {
    annotate := ← lookup? fields "annotate" document.boolean? false
    strict := ← lookup? fields "strict_declarations" document.boolean? false }

/-- The settings that a document stands for. -/
def ofDocument? (document : Document) : Option Settings := do
  let fields ← document.fields? (document.root.getD Document.Node.empty)
  let directory ← lookup? fields "output_dir" document.optionalText? none
  return {
    options := ← lookup? fields "compiler" (options? document) {}
    traceTokens := ← lookup? fields "trace_tokens" document.boolean? false
    outputDirectory := directory.map Path.mk }

/-- The settings in a text. -/
def ofText? (text : String) : Option Settings := Document.ofText? text >>= ofDocument?

end Settings

end Jack
