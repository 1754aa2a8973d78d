import Jack.Device.Outlet
import Jack.Device.Sink

/-!
# The token listing

The consumed tokens as a small XML document: an element for each token, named for its class, with
the source text inside. The characters that have a meaning in XML are written as entities.
-/

namespace Jack

/-- The text of a character inside an element. -/
def escapeChar : Char → List Char
  | '<' => ['&', 'l', 't', ';']
  | '>' => ['&', 'g', 't', ';']
  | '"' => ['&', 'q', 'u', 'o', 't', ';']
  | '&' => ['&', 'a', 'm', 'p', ';']
  | c => [c]

/-- A text with its special characters written as entities. -/
def escape (text : String) : String := String.ofList (text.toList.flatMap escapeChar)

/-- The writer of a token listing. -/
structure TokenTrace where
  outlet : Outlet
  /-- Whether the document has been opened, or at least tried to be. -/
  started : Bool := false

namespace TokenTrace

/-- Write to the outlet of the listing. -/
def write (text : String) : EStateM String TokenTrace Unit := fun trace =>
  match Outlet.write text trace.outlet with
  | .ok _ outlet => .ok () { trace with outlet := outlet }
  | .error failure outlet => .error failure { trace with outlet := outlet }

/-- Open the document, the first time. -/
def start : EStateM String TokenTrace Unit := do
  unless (← get).started do
    modify fun trace => { trace with started := true }
    write "<tokens>\n"

/-- The element of a token. -/
def element (tag : TokenTag) (lexeme : String) : String :=
  "<" ++ tag.text ++ "> " ++ escape lexeme ++ " </" ++ tag.text ++ ">\n"

/-- List a token. The end of the input has no element. -/
def token (tag : TokenTag) (lexeme : String) : EStateM String TokenTrace Unit := do
  unless tag = .eof do
    start
    write (element tag lexeme)

/-- Close the document. -/
def finish : EStateM String TokenTrace Unit := do
  start
  write "</tokens>\n"

/-- The listing as a sink. -/
def sink : Sink TokenTrace where
  token t := token t.kind.tag t.kind.lexeme
  finish := finish

end TokenTrace

end Jack
