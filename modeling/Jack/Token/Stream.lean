import Jack.Token.Scan

/-!
# Token streams

A stream holds the token it stands on and what scanning answers after it. Going on past a problem
keeps the current token, but the problem is not met again. The end of the input is never left.
`size` counts the tokens a stream can still give before the end; going on makes it smaller.
-/

namespace Jack

/-- The token the reader stands on, and the answers of the scan that follow it. -/
structure TokenStream where
  current : Token
  pending : List Scanned

namespace TokenStream

/-- The stream at its first token, if that can be scanned. -/
def ofAnswers : List Scanned → Except Problem TokenStream
  | [] => .ok ⟨⟨.eof, 1⟩, []⟩
  | .ok token :: rest => .ok ⟨token, rest⟩
  | .error problem :: _ => .error problem

/-- The stream of a source text. -/
def ofSource (source : String) : Except Problem TokenStream := ofAnswers (scan source)

/-- Go on to the next token; a problem met there is returned and the current token stays. -/
def advance (stream : TokenStream) : Option Problem × TokenStream :=
  if stream.current.isEof then
    (none, stream)
  else
    match stream.pending with
    | [] => (none, ⟨⟨.eof, stream.current.line⟩, []⟩)
    | .ok token :: rest => (none, ⟨token, rest⟩)
    | .error problem :: rest => (some problem, { stream with pending := rest })

/-- How many tokens can at most be read before the end of the input. -/
def size (stream : TokenStream) : Nat :=
  if stream.current.isEof then 0 else stream.pending.length + 1

theorem size_le (stream : TokenStream) : stream.size ≤ stream.pending.length + 1 := by
  unfold size
  split <;> omega

theorem size_advance_lt {stream : TokenStream} (h : stream.current.isEof = false) :
    stream.advance.2.size < stream.size := by
  have hsize : stream.size = stream.pending.length + 1 := by simp [size, h]
  rw [hsize]
  unfold advance
  rw [if_neg (by simp [h])]
  split <;> rename_i hp
  · simp [size, Token.isEof, TokenKind.isEof]
  · rw [hp]
    exact Nat.lt_succ_of_le (size_le _)
  · rw [hp]
    exact Nat.lt_succ_of_le (size_le _)

theorem advance_of_isEof {stream : TokenStream} (h : stream.current.isEof = true) :
    stream.advance = (none, stream) := by
  simp [advance, h]

end TokenStream

end Jack
