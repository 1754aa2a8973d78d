import Jack.Proofs.Delivery.Sink
import Jack.Proofs.Text.Lines

/-!
# The token listing can be read back

A listing writes its heading with the first element, or at the end if there is none, then a line for
each token that is not the end of the input, and its closing line. From the text alone a reader gets
the classes and the lexemes of these tokens:

1. `TokenTrace.listAll_unlimited` is the text written, whatever was written before;
2. escaping is undone by `unescape` (`unescape_escape`), although a lexeme may itself look like a
   tag or an entity. One case distinction on a character says all that is needed
   (`escapeChar_cases`);
3. no line of the listing holds a line feed of its own, so the lines of the text are the lines
   written (`textLines_document`), and each is read back by itself (`readElement_elementLine`).

`token_listing_reads_back` puts this together.
-/

namespace Jack

/-! ## What is written -/

namespace TokenTrace

variable {tag : TokenTag}

/-- List tokens, given by class and lexeme, and close the document. -/
def listAll : List (TokenTag × String) → EStateM String TokenTrace Unit
  | [] => finish
  | t :: tokens => do
    token t.1 t.2
    listAll tokens

/-- The tokens that have an element: all but the ends of the input. -/
def shown (tokens : List (TokenTag × String)) : List (TokenTag × String) :=
  tokens.filter fun t => t.1 ≠ .eof

/-- What stands before the first element, unless it has been written. -/
def heading (started : Bool) : String := if started then "" else "<tokens>\n"

/-- The elements of tokens and the end of the document. -/
def remainder (tokens : List (TokenTag × String)) : String :=
  String.join (tokens.map fun t => element t.1 t.2) ++ "</tokens>\n"

/-- The whole document for tokens. -/
def document (tokens : List (TokenTag × String)) : String := heading false ++ remainder tokens

theorem write_unlimited (text : String) (written : ByteArray) (started : Bool) :
    write text ⟨⟨none, written⟩, started⟩ =
      .ok () ⟨⟨none, written ++ text.toUTF8⟩, started⟩ := by
  simp only [write, Outlet.write_unlimited]

theorem start_unlimited (written : ByteArray) (started : Bool) :
    start ⟨⟨none, written⟩, started⟩ =
      .ok () ⟨⟨none, written ++ (heading started).toUTF8⟩, true⟩ := by
  cases started with
  | true =>
    have hnothing : written ++ (heading true).toUTF8 = written := ByteArray.append_empty
    rw [hnothing]
    rfl
  | false => exact write_unlimited "<tokens>\n" written true

/-- After the heading, if it is still missing, a text is written. -/
theorem start_write_unlimited (text : String) (written : ByteArray) (started : Bool) :
    (do start; write text) ⟨⟨none, written⟩, started⟩ =
      .ok () ⟨⟨none, written ++ (heading started ++ text).toUTF8⟩, true⟩ := by
  have hbytes : (heading started ++ text).toUTF8 = (heading started).toUTF8 ++ text.toUTF8 :=
    String.toByteArray_append
  rw [hbytes]
  simp only [bind, EStateM.bind, start_unlimited, write_unlimited, ByteArray.append_assoc]

theorem token_of_ne_eof (h : tag ≠ .eof) (lexeme : String) :
    token tag lexeme = (do start; write (element tag lexeme)) := by
  unfold token
  rw [if_neg h]

/-- What a listing adds to what has been written. The heading comes with the first element. -/
theorem listAll_unlimited (tokens : List (TokenTag × String)) (written : ByteArray)
    (started : Bool) : listAll tokens ⟨⟨none, written⟩, started⟩ =
      .ok () ⟨⟨none, written ++ (heading started ++ remainder (shown tokens)).toUTF8⟩, true⟩ := by
  induction tokens generalizing written started with
  | nil => exact start_write_unlimited "</tokens>\n" written started
  | cons t tokens ih =>
    by_cases heof : t.1 = .eof
    · have hshown : shown (t :: tokens) = shown tokens := by simp [shown, heof]
      rw [hshown, listAll, heof]
      exact ih written started
    · have hshown : shown (t :: tokens) = t :: shown tokens := by simp [shown, heof]
      have hremainder : heading started ++ remainder (t :: shown tokens) =
          heading started ++ element t.1 t.2 ++ (heading true ++ remainder (shown tokens)) := by
        simp [remainder, heading, String.append_assoc]
      have hbytes : (heading started ++ remainder (t :: shown tokens)).toUTF8 =
          (heading started ++ element t.1 t.2).toUTF8 ++
            (heading true ++ remainder (shown tokens)).toUTF8 := by
        rw [hremainder]
        exact String.toByteArray_append
      have hfirst := start_write_unlimited (element t.1 t.2) written started
      rw [← token_of_ne_eof heof] at hfirst
      rw [hshown, listAll, hbytes, ← ByteArray.append_assoc, ← ih]
      simp only [bind, EStateM.bind, hfirst]

/-- What a listing writes to an outlet that is empty. -/
theorem listAll_fresh (tokens : List (TokenTag × String)) :
    listAll tokens { outlet := Outlet.empty none } =
      .ok () ⟨⟨none, (document (shown tokens)).toUTF8⟩, true⟩ := by
  have hlist := listAll_unlimited tokens ByteArray.empty false
  rwa [ByteArray.empty_append] at hlist

end TokenTrace

/-! ## Escaping -/

/-- The characters that are written as entities. -/
def entities : List (Char × List Char) :=
  [('<', ['&', 'l', 't', ';']), ('>', ['&', 'g', 't', ';']),
    ('"', ['&', 'q', 'u', 'o', 't', ';']), ('&', ['&', 'a', 'm', 'p', ';'])]

/-- A character is written as its entity or as itself. -/
theorem escapeChar_cases (c : Char) : (c, escapeChar c) ∈ entities ∨
    (c ≠ '<' ∧ c ≠ '>' ∧ c ≠ '"' ∧ c ≠ '&') ∧ escapeChar c = [c] := by
  unfold escapeChar
  split
  · simp [entities]
  · simp [entities]
  · simp [entities]
  · simp [entities]
  · rename_i hlt hgt hquote hamp
    exact .inr ⟨⟨hlt, hgt, hquote, hamp⟩, rfl⟩

/-- The text that an escaped text stands for. -/
def unescape : List Char → Option (List Char)
  | [] => some []
  | '&' :: 'l' :: 't' :: ';' :: cs => (unescape cs).map ('<' :: ·)
  | '&' :: 'g' :: 't' :: ';' :: cs => (unescape cs).map ('>' :: ·)
  | '&' :: 'q' :: 'u' :: 'o' :: 't' :: ';' :: cs => (unescape cs).map ('"' :: ·)
  | '&' :: 'a' :: 'm' :: 'p' :: ';' :: cs => (unescape cs).map ('&' :: ·)
  | '&' :: _ => none
  | c :: cs => (unescape cs).map (c :: ·)

theorem unescape_cons {c : Char} (h : c ≠ '&') (cs : List Char) :
    unescape (c :: cs) = (unescape cs).map (c :: ·) := by
  conv_lhs => unfold unescape
  split <;> simp_all

theorem unescape_escapeChar (c : Char) (cs : List Char) :
    unescape (escapeChar c ++ cs) = (unescape cs).map (c :: ·) := by
  obtain hentity | ⟨⟨-, -, -, hc⟩, hself⟩ := escapeChar_cases c
  · simp only [entities, List.mem_cons, Prod.mk.injEq, List.not_mem_nil, or_false] at hentity
    obtain ⟨rfl, -⟩ | ⟨rfl, -⟩ | ⟨rfl, -⟩ | ⟨rfl, -⟩ := hentity <;> rfl
  · rw [hself]
    exact unescape_cons hc cs

theorem toList_escape (text : String) : (escape text).toList = text.toList.flatMap escapeChar := by
  simp [escape]

/-- Escaping is undone. -/
theorem unescape_escape (text : String) : unescape (escape text).toList = some text.toList := by
  rw [toList_escape]
  induction text.toList with
  | nil => rfl
  | cons c cs ih => rw [List.flatMap_cons, unescape_escapeChar, ih, Option.map_some]

/-- A character of an escaped text belongs to an entity or to the text. -/
theorem mem_escape {c : Char} {text : String} (h : c ∈ (escape text).toList) :
    (∃ e ∈ entities, c ∈ e.2) ∨ c ∈ text.toList ∧ c ≠ '<' ∧ c ≠ '>' ∧ c ≠ '"' := by
  rw [toList_escape, List.mem_flatMap] at h
  obtain ⟨d, hd, hc⟩ := h
  obtain hentity | ⟨⟨hlt, hgt, hquote, -⟩, hself⟩ := escapeChar_cases d
  · exact .inl ⟨_, hentity, hc⟩
  · rw [hself, List.mem_singleton] at hc
    exact .inr (hc ▸ ⟨hd, hlt, hgt, hquote⟩)

/-- No bracket and no quote is left in an escaped text. -/
theorem notMem_escape {c : Char} (hc : c ∈ ['<', '>', '"']) (text : String) :
    c ∉ (escape text).toList := by
  intro h
  obtain ⟨e, he, hce⟩ | ⟨-, hlt, hgt, hquote⟩ := mem_escape h
  · have hplain : ∀ e ∈ entities, ∀ c ∈ ['<', '>', '"'], c ∉ e.2 := by simp [entities]
    exact hplain e he c hc hce
  · simp [hlt, hgt, hquote] at hc

/-- Escaping adds no line feed. -/
theorem newline_notMem_escape {text : String} (h : '\n' ∉ text.toList) :
    '\n' ∉ (escape text).toList := by
  intro hnewline
  obtain ⟨e, he, hmem⟩ | ⟨hmem, -⟩ := mem_escape hnewline
  · have hplain : ∀ e ∈ entities, '\n' ∉ e.2 := by simp [entities]
    exact hplain e he hmem
  · exact h hmem

/-- Every ampersand in an escaped text is the start of an entity. -/
theorem exists_entity_of_escape {text : String} {before after : List Char}
    (h : (escape text).toList = before ++ '&' :: after) :
    ∃ entity ∈ entities.map Prod.snd, entity <+: '&' :: after := by
  rw [toList_escape] at h
  generalize text.toList = cs at h
  induction cs generalizing before with
  | nil => simp at h
  | cons c cs ih =>
    rw [List.flatMap_cons, List.append_eq_append_iff] at h
    obtain ⟨skipped, -, hrest⟩ | ⟨inside, hchar, hafter⟩ := h
    · exact ih hrest
    · cases inside with
      | nil => exact @ih [] hafter.symm
      | cons d inside =>
        -- the ampersand is one of those written for `c`
        obtain ⟨rfl, -⟩ := List.cons.inj hafter
        obtain hentity | ⟨⟨-, -, -, hc⟩, hself⟩ := escapeChar_cases c
        · have hfirst : ∀ e ∈ entities, '&' ∉ e.2.tail := by simp [entities]
          have hbefore : before = [] := by
            cases before with
            | nil => rfl
            | cons b before => exact absurd (by simp [hchar]) (hfirst _ hentity)
          refine ⟨escapeChar c, List.mem_map_of_mem hentity, ?_⟩
          rw [hchar, hbefore, hafter]
          exact ⟨_, rfl⟩
        · have hmem : '&' ∈ [c] := by simp [← hself, hchar]
          exact absurd (List.mem_singleton.mp hmem).symm hc

/-! ## Elements -/

/-- The line of an element, without its line feed. -/
def elementLine (t : TokenTag × String) : List Char :=
  '<' :: t.1.text.toList ++ ['>', ' '] ++ (escape t.2).toList ++
    ([' ', '<', '/'] ++ t.1.text.toList ++ ['>'])

theorem toList_element (tag : TokenTag) (lexeme : String) :
    (TokenTrace.element tag lexeme).toList = elementLine (tag, lexeme) ++ ['\n'] := by
  simp [TokenTrace.element, elementLine]

/-- The class of tokens with this name, other than the end of the input. -/
def TokenTag.ofText? (text : List Char) : Option TokenTag :=
  [keyword, symbol, integerConstant, stringConstant, identifier].find? fun tag =>
    tag.text.toList = text

theorem TokenTag.ofText?_text {tag : TokenTag} (h : tag ≠ .eof) :
    ofText? tag.text.toList = some tag := by
  cases tag with
  | keyword | symbol | integerConstant | stringConstant | identifier => rfl
  | eof => exact absurd rfl h

/-- Read a line `<name> text </name>`. -/
def readElement (line : List Char) : Option (TokenTag × String) :=
  let name := (line.drop 1).takeWhile (· != '>')
  let first := '<' :: name ++ ['>', ' ']
  let last := [' ', '<', '/'] ++ name ++ ['>']
  let content := (line.drop first.length).take (line.length - first.length - last.length)
  if line = first ++ content ++ last then do
    let tag ← TokenTag.ofText? name
    let lexeme ← unescape content
    return (tag, String.ofList lexeme)
  else
    none

theorem take_drop_middle (first content last : List Char) :
    ((first ++ content ++ last).drop first.length).take
      ((first ++ content ++ last).length - first.length - last.length) = content := by
  have hlength : (first ++ content ++ last).length - first.length - last.length =
      content.length := by
    simp only [List.length_append]
    omega
  rw [hlength, List.append_assoc, List.drop_left, List.take_left]

/-- An element is read back. -/
theorem readElement_elementLine {t : TokenTag × String} (h : t.1 ≠ .eof) :
    readElement (elementLine t) = some t := by
  have hplain : ∀ c ∈ t.1.text.toList, (c != '>') = true :=
    List.all_eq_true.mp (by cases t.1 <;> decide)
  have hname : ((elementLine t).drop 1).takeWhile (· != '>') = t.1.text.toList := by
    simp [elementLine, List.takeWhile_append_of_pos hplain]
  unfold readElement
  simp only [hname]
  rw [if_pos, elementLine, take_drop_middle]
  · simp [TokenTag.ofText?_text h, unescape_escape]
  · rw [elementLine, take_drop_middle]

/-! ## The document -/

/-- Read a listing: its heading, an element on each line, its end. -/
def readListing (text : String) : Option (List (TokenTag × String)) :=
  match textLines text.toList with
  | [] => none
  | first :: rest =>
    if first = "<tokens>".toList ∧ rest.getLast? = some "</tokens>".toList then
      rest.dropLast.mapM readElement
    else
      none

/-- The lines of a listing. -/
def listingLines (tokens : List (TokenTag × String)) : List (List Char) :=
  "<tokens>".toList :: tokens.map elementLine ++ ["</tokens>".toList]

theorem toList_document (tokens : List (TokenTag × String)) :
    (TokenTrace.document tokens).toList =
      (listingLines tokens).flatMap fun line => line ++ ['\n'] := by
  simp [TokenTrace.document, TokenTrace.remainder, TokenTrace.heading, listingLines, toList_element,
    List.flatMap_map, String.toList_join]

theorem newline_notMem_elementLine {t : TokenTag × String} (h : '\n' ∉ t.2.toList) :
    '\n' ∉ elementLine t := by
  have hname : '\n' ∉ t.1.text.toList := by
    cases t.1 <;> decide
  simp [elementLine, hname, newline_notMem_escape h]

variable {tokens : List (TokenTag × String)}

/-- The lines of the text written are the lines of the listing. -/
theorem textLines_document (h : ∀ t ∈ tokens, '\n' ∉ t.2.toList) :
    textLines (TokenTrace.document tokens).toList = listingLines tokens := by
  rw [toList_document]
  refine textLines_flatMap ?_
  simp only [listingLines, List.cons_append, List.forall_mem_cons, List.forall_mem_append,
    List.forall_mem_map]
  exact ⟨by decide, fun t ht => newline_notMem_elementLine (h t ht), by decide⟩

/-- A listing is read back. -/
theorem readListing_document (h : ∀ t ∈ tokens, '\n' ∉ t.2.toList)
    (hshown : ∀ t ∈ tokens, t.1 ≠ .eof) :
    readListing (TokenTrace.document tokens) = some tokens := by
  have helements : (tokens.map elementLine).mapM readElement = some tokens := by
    clear h
    induction tokens with
    | nil => rfl
    | cons t tokens ih =>
      obtain ⟨ht, htokens⟩ := List.forall_mem_cons.mp hshown
      rw [List.map_cons, List.mapM_cons, readElement_elementLine ht, ih htokens]
      rfl
  unfold readListing
  rw [textLines_document h, listingLines, List.cons_append]
  simp [helements]

theorem ne_eof_of_mem_shown {t : TokenTag × String} (h : t ∈ TokenTrace.shown tokens) :
    t.1 ≠ .eof := by
  simpa using (List.mem_filter.mp h).2

theorem newline_notMem_of_shown
    (h : ∀ t ∈ tokens, ∀ c ∈ t.2.toList, Text.isLineBreak c = false) :
    ∀ t ∈ TokenTrace.shown tokens, '\n' ∉ t.2.toList := by
  intro t ht hnewline
  exact absurd (h t (List.mem_filter.mp ht).1 _ hnewline) (by decide)

/-- What is read back are the tokens that have an element. -/
theorem readListing_shown (h : ∀ t ∈ tokens, ∀ c ∈ t.2.toList, Text.isLineBreak c = false) :
    readListing (TokenTrace.document (TokenTrace.shown tokens)) = some (TokenTrace.shown tokens) :=
  readListing_document (newline_notMem_of_shown h) fun _ => ne_eof_of_mem_shown

/-! ## The tokens of a text -/

theorem isLineBreak_eq_false_of_all {p : Char → Bool} (hp : p '\n' = false ∧ p '\r' = false)
    {cs : List Char} (h : cs.all p = true) : ∀ c ∈ cs, Text.isLineBreak c = false := by
  intro c hc
  have hpc : p c = true := List.all_eq_true.mp h c hc
  rw [Bool.eq_false_iff]
  intro hbreak
  have hcases : c = '\n' ∨ c = '\r' := by simpa [Text.isLineBreak] using hbreak
  obtain rfl | rfl := hcases
  · exact absurd hpc (Bool.eq_false_iff.mp hp.1)
  · exact absurd hpc (Bool.eq_false_iff.mp hp.2)

/-- No token of a text holds a line break. -/
theorem isLineBreak_lexeme_of_mem_scan {source : String} {token : Token}
    (h : .ok token ∈ scan source) : ∀ c ∈ token.kind.lexeme.toList, Text.isLineBreak c = false := by
  cases heof : token.isEof with
  | true =>
    rw [TokenKind.isEof_iff.mp heof]
    exact fun c hc => absurd hc (by simp [TokenKind.lexeme])
  | false =>
    have hformed := Cursor.wellFormed_of_mem_answers h heof
    cases hkind : token.kind with
    | keyword k =>
      refine isLineBreak_eq_false_of_all (p := fun c => !Text.isLineBreak c) (by decide) ?_
      cases k <;> decide
    | symbol s =>
      refine isLineBreak_eq_false_of_all (p := fun c => !Text.isLineBreak c) (by decide) ?_
      cases s <;> decide
    | integer value digits =>
      rw [hkind] at hformed
      exact isLineBreak_eq_false_of_all (by decide) hformed.2.1
    | string characters =>
      rw [hkind] at hformed
      exact isLineBreak_eq_false_of_all (by decide) hformed
    | identifier name =>
      rw [hkind] at hformed
      exact isLineBreak_eq_false_of_all (by decide) hformed.2.2.2
    | eof => cases hkind ▸ hformed

/-- Telling the listing of tokens and of the end of the unit lists their classes and lexemes. -/
theorem tell_finish_eq_listAll (ts : List Token) :
    (do TokenTrace.sink.tell ts; TokenTrace.sink.finish) =
      TokenTrace.listAll (ts.map fun t => (t.kind.tag, t.kind.lexeme)) := by
  induction ts with
  | nil => rfl
  | cons t ts ih =>
    rw [List.map_cons, TokenTrace.listAll, ← ih]
    simp only [Sink.tell, List.map_cons, Sink.hearAll, bind_assoc]
    rfl

/-- **The token listing can be read back.** Let no lexeme hold a line break, as is so for all tokens
of a text. The text written for the tokens is a heading, a line for each token that is not the end
of the input, in their order, and an end. Each line gives back the class and the lexeme of its
token, and the text gives back them all, so tokens with other classes or lexemes give another text.
In a line there is no bracket or quote between the tags, and every ampersand there begins one of the
four entities. -/
theorem token_listing_reads_back (tokens : List (TokenTag × String))
    (h : ∀ t ∈ tokens, ∀ c ∈ t.2.toList, Text.isLineBreak c = false) :
    TokenTrace.listAll tokens { outlet := Outlet.empty none } =
      .ok () ⟨⟨none, (TokenTrace.document (TokenTrace.shown tokens)).toUTF8⟩, true⟩ ∧
    textLines (TokenTrace.document (TokenTrace.shown tokens)).toList =
      "<tokens>".toList :: (TokenTrace.shown tokens).map elementLine ++ ["</tokens>".toList] ∧
    (∀ t ∈ TokenTrace.shown tokens, readElement (elementLine t) = some t) ∧
    readListing (TokenTrace.document (TokenTrace.shown tokens)) = some (TokenTrace.shown tokens) ∧
    (∀ tokens', (∀ t ∈ tokens', ∀ c ∈ t.2.toList, Text.isLineBreak c = false) →
      ∀ trace trace', TokenTrace.listAll tokens { outlet := Outlet.empty none } = .ok () trace →
        TokenTrace.listAll tokens' { outlet := Outlet.empty none } = .ok () trace' →
        (trace.outlet.written = trace'.outlet.written ↔
          TokenTrace.shown tokens = TokenTrace.shown tokens')) ∧
    (∀ t ∈ tokens, (∀ c ∈ ['<', '>', '"'], c ∉ (escape t.2).toList) ∧
      ∀ before after, (escape t.2).toList = before ++ '&' :: after →
        ∃ entity ∈ ["&lt;".toList, "&gt;".toList, "&quot;".toList, "&amp;".toList],
          entity <+: '&' :: after) ∧
    (∀ ts : List Token, (do TokenTrace.sink.tell ts; TokenTrace.sink.finish) =
      TokenTrace.listAll (ts.map fun t => (t.kind.tag, t.kind.lexeme))) ∧
    ∀ source token, .ok token ∈ scan source →
      ∀ c ∈ token.kind.lexeme.toList, Text.isLineBreak c = false := by
  refine ⟨TokenTrace.listAll_fresh tokens, textLines_document (newline_notMem_of_shown h),
    fun t ht => readElement_elementLine (ne_eof_of_mem_shown ht), readListing_shown h, ?_, ?_,
    tell_finish_eq_listAll, fun _ _ => isLineBreak_lexeme_of_mem_scan⟩
  · intro tokens' h' trace trace' htrace htrace'
    rw [TokenTrace.listAll_fresh] at htrace htrace'
    cases htrace
    cases htrace'
    constructor
    · intro hbytes
      have htext := String.toByteArray_inj.mp hbytes
      rw [← Option.some_inj, ← readListing_shown h, ← readListing_shown h', htext]
    · intro hshown
      rw [hshown]
  · intro t _
    exact ⟨fun c hc => notMem_escape hc t.2, fun before after => exists_entity_of_escape⟩

/-- Tokens whose lexemes look like parts of a listing, with an end of the input between them. -/
def lookalikes : List (TokenTag × String) :=
  [(.keyword, "if"), (.eof, ""), (.stringConstant, " &lt;</tokens> "), (.symbol, "<")]

theorem lookalikes_read_back :
    (∀ t ∈ lookalikes, ∀ c ∈ t.2.toList, Text.isLineBreak c = false) ∧
    readListing (TokenTrace.document (TokenTrace.shown lookalikes)) =
      some [(.keyword, "if"), (.stringConstant, " &lt;</tokens> "), (.symbol, "<")] := by
  have h : ∀ t ∈ lookalikes, ∀ c ∈ t.2.toList, Text.isLineBreak c = false := by
    have hall : lookalikes.all (fun t => t.2.toList.all fun c => !Text.isLineBreak c) = true := by
      decide
    simpa only [List.all_eq_true, Bool.not_eq_true'] using hall
  exact ⟨h, (token_listing_reads_back lookalikes h).2.2.2.1⟩

end Jack
