import Mathlib.Data.List.DropRight
import Mathlib.Data.List.Forall2
import Jack.Compare

/-!
# Lines of a text

What the lines of a text are, said without the function that finds them. A line ends at a line feed,
together with the carriage return before it if there is one, or at the end of the text, and a line
feed at the end begins no further line (`IsLines`). Blanks at the two ends of a line are then taken
off (`IsTrimmed`).

1. `text_induction` takes a text apart at its first line feed, and `textLines_append` says what the
   lines then are.
2. A carriage return is a blank, so it makes no difference to a trimmed line whether the carriage
   return before the line feed belongs to the line (`map_trim_of_isLines`).
3. Every text has exactly one list of trimmed lines, and this is what `trimmedLines` finds
   (`hasTrimmedLines_iff`).
4. Neither carriage returns before line feeds (`Returned`) nor a line feed after the last line
   change the trimmed lines.
-/

namespace Jack

variable {text line t after : List Char} {lines : List (List Char)}

/-! ## Trimming -/

/-- The line without the blanks at its ends: what is left out is blank, and what is left neither
begins nor ends with a blank. -/
def IsTrimmed (line t : List Char) : Prop :=
  ∃ before after, line = before ++ t ++ after ∧ (∀ c ∈ before ++ after, Text.isBlank c = true) ∧
    (∀ c ∈ t.head?, Text.isBlank c = false) ∧ ∀ c ∈ t.getLast?, Text.isBlank c = false

theorem isTrimmed_trim (line : List Char) : IsTrimmed line (Text.trim line) := by
  -- blanks are dropped at the left end first, then at the right end of what is left
  let middle := line.dropWhile Text.isBlank
  have htrim : Text.trim line = middle.rdropWhile Text.isBlank := rfl
  refine ⟨line.takeWhile Text.isBlank, middle.rtakeWhile Text.isBlank, ?_, ?_, ?_, ?_⟩
  · rw [htrim, List.append_assoc, List.rdropWhile_append_rtakeWhile,
      List.takeWhile_append_dropWhile]
  · intro c hc
    obtain hc | hc := List.mem_append.mp hc
    · exact List.mem_takeWhile_imp hc
    · exact List.mem_rtakeWhile_imp hc
  · intro c hc
    have hhead : middle.head? = some c := by
      rw [← List.rdropWhile_append_rtakeWhile (p := Text.isBlank) (l := middle),
        List.head?_append, ← htrim, Option.mem_def.mp hc]
      rfl
    have hnot := List.head?_dropWhile_not Text.isBlank line
    rwa [show (line.dropWhile Text.isBlank).head? = some c from hhead] at hnot
  · intro c hc
    obtain ⟨hne, rfl⟩ := List.mem_getLast?_eq_getLast hc
    exact Bool.eq_false_iff.mpr (List.rdropWhile_last_not Text.isBlank middle hne)

theorem dropWhile_of_head? {p : Char → Bool} (h : ∀ c ∈ t.head?, p c = false) :
    t.dropWhile p = t := by
  cases t with
  | nil => rfl
  | cons c t => simp [h c rfl]

/-- Trimming is the only way to take off the blanks. -/
theorem eq_trim_of_isTrimmed (h : IsTrimmed line t) : t = Text.trim line := by
  obtain ⟨before, after, rfl, hblank, hhead, hlast⟩ := h
  obtain ⟨hbefore, hafter⟩ := List.forall_mem_append.mp hblank
  unfold Text.trim
  rw [List.append_assoc, List.dropWhile_append_of_pos hbefore]
  cases t with
  | nil =>
    rw [List.nil_append, List.dropWhile_eq_nil_iff.mpr hafter]
    rfl
  | cons c t =>
    have hleft : (c :: t ++ after).dropWhile Text.isBlank = c :: t ++ after :=
      dropWhile_of_head? (by simpa using hhead)
    have hright : (c :: t).reverse.dropWhile Text.isBlank = (c :: t).reverse :=
      dropWhile_of_head? (by rwa [List.head?_reverse])
    rw [hleft, List.reverse_append, List.dropWhile_append_of_pos (by simpa using hafter), hright,
      List.reverse_reverse]

/-- Blanks after a line are trimmed with it. -/
theorem trim_append (line : List Char) (h : ∀ c ∈ after, Text.isBlank c = true) :
    Text.trim (line ++ after) = Text.trim line := by
  obtain ⟨before, blanks, hline, hblank, hends⟩ := isTrimmed_trim line
  refine (eq_trim_of_isTrimmed ⟨before, blanks ++ after, ?_, ?_, hends⟩).symm
  · rw [← List.append_assoc, ← hline]
  · rw [← List.append_assoc]
    exact List.forall_mem_append.mpr ⟨hblank, h⟩

/-! ## Lines -/

/-- The lines of a text. A line ends at a line feed, with the carriage return before it if there is
one, or at the end of the text. What follows the last line feed is a line unless it is empty. -/
inductive IsLines : List Char → List (List Char) → Prop
  | nil : IsLines [] []
  | last {line : List Char} (h : '\n' ∉ line) (hline : line ≠ []) : IsLines line [line]
  | feed {line rest : List Char} {lines : List (List Char)} (h : '\n' ∉ line)
    (hreturn : line.getLast? ≠ some '\r') (hrest : IsLines rest lines) :
    IsLines (line ++ '\n' :: rest) (line :: lines)
  | returnFeed {line rest : List Char} {lines : List (List Char)} (h : '\n' ∉ line)
    (hrest : IsLines rest lines) : IsLines (line ++ '\r' :: '\n' :: rest) (line :: lines)

/-- The lines of a text, each without the blanks at its ends. -/
def HasTrimmedLines (text : String) (ts : List (List Char)) : Prop :=
  ∃ lines, IsLines text.toList lines ∧ List.Forall₂ IsTrimmed lines ts

/-- A text is empty, or one line without its line feed, or begins with a line. -/
@[elab_as_elim]
theorem text_induction {motive : List Char → Prop} (text : List Char) (nil : motive [])
    (last : ∀ line, '\n' ∉ line → line ≠ [] → motive line)
    (feed : ∀ line rest, '\n' ∉ line → motive rest → motive (line ++ '\n' :: rest)) :
    motive text := by
  induction hn : text.length using Nat.strong_induction_on generalizing text with
  | _ n ih =>
    by_cases h : '\n' ∈ text
    · obtain ⟨line, rest, rfl, hline⟩ := List.eq_append_cons_of_mem h
      refine feed line rest hline (ih rest.length ?_ rest rfl)
      rw [← hn, List.length_append, List.length_cons]
      omega
    · by_cases hnil : text = []
      · exact hnil ▸ nil
      · exact last text h hnil

theorem split_ne_nil (separator : Char) (text : List Char) : Text.split separator text ≠ [] := by
  have key : ∀ found piece, Text.collectPieces separator found piece text ≠ [] := by
    induction text with
    | nil => simp [Text.collectPieces]
    | cons c cs ih =>
      intro found piece
      rw [Text.collectPieces_cons]
      split <;> exact ih _ _
  exact key [] []

theorem textLines_of_notMem (h : '\n' ∉ line) (hline : line ≠ []) : textLines line = [line] := by
  simp [textLines, Text.split_of_notMem h, hline]

/-- The lines of a text that begins with a line. -/
theorem textLines_append (h : '\n' ∉ line) (rest : List Char) :
    textLines (line ++ '\n' :: rest) = line :: textLines rest := by
  unfold textLines
  rw [Text.split_append, Text.split_of_notMem h, List.singleton_append]
  obtain ⟨piece, pieces, hpieces⟩ := List.exists_cons_of_ne_nil (split_ne_nil '\n' rest)
  simp only [hpieces, List.getLast?_cons_cons, List.dropLast_cons_cons]
  split <;> rfl

/-- Lines that are written with a line feed after each are the lines of what is written. -/
theorem textLines_flatMap (h : ∀ line ∈ lines, '\n' ∉ line) :
    textLines (lines.flatMap fun line => line ++ ['\n']) = lines := by
  induction lines with
  | nil => rfl
  | cons line lines ih =>
    obtain ⟨hline, hlines⟩ := List.forall_mem_cons.mp h
    rw [List.flatMap_cons, List.append_assoc, List.singleton_append, textLines_append hline,
      ih hlines]

/-- There are lines in every text. -/
theorem exists_isLines (text : List Char) : ∃ lines, IsLines text lines := by
  induction text using text_induction with
  | nil => exact ⟨[], .nil⟩
  | last line h hline => exact ⟨[line], .last h hline⟩
  | feed line rest h ih =>
    obtain ⟨lines, hlines⟩ := ih
    by_cases hreturn : line.getLast? = some '\r'
    · obtain ⟨content, rfl⟩ := List.getLast?_eq_some_iff.mp hreturn
      rw [List.append_assoc]
      exact ⟨content :: lines, .returnFeed (fun hmem => h (List.mem_append_left _ hmem)) hlines⟩
    · exact ⟨line :: lines, .feed h hreturn hlines⟩

/-- Whether the carriage return before a line feed belongs to the line does not matter to the
trimmed line. -/
theorem map_trim_of_isLines (h : IsLines text lines) :
    (textLines text).map Text.trim = lines.map Text.trim := by
  induction h with
  | nil => rfl
  | last h hline => rw [textLines_of_notMem h hline]
  | feed h _ _ ih => rw [textLines_append h, List.map_cons, List.map_cons, ih]
  | @returnFeed line rest lines h _ ih =>
    have hline : '\n' ∉ line ++ ['\r'] := by simpa using h
    have htext : line ++ '\r' :: '\n' :: rest = (line ++ ['\r']) ++ '\n' :: rest := by simp
    rw [htext, textLines_append hline, List.map_cons, List.map_cons, ih,
      trim_append line (by simp; decide)]

theorem forall₂_isTrimmed_iff {ts : List (List Char)} :
    List.Forall₂ IsTrimmed lines ts ↔ ts = lines.map Text.trim := by
  constructor
  · intro h
    induction h with
    | nil => rfl
    | cons h _ ih => rw [List.map_cons, ← ih, eq_trim_of_isTrimmed h]
  · rintro rfl
    exact List.forall₂_map_right_iff.mpr (List.forall₂_same.mpr fun line _ => isTrimmed_trim line)

/-- Every text has one list of trimmed lines. -/
theorem hasTrimmedLines_iff {text : String} {ts : List (List Char)} :
    HasTrimmedLines text ts ↔ ts = trimmedLines text := by
  unfold HasTrimmedLines trimmedLines
  constructor
  · rintro ⟨lines, hlines, htrimmed⟩
    rw [map_trim_of_isLines hlines]
    exact forall₂_isTrimmed_iff.mp htrimmed
  · rintro rfl
    obtain ⟨lines, hlines⟩ := exists_isLines text.toList
    exact ⟨lines, hlines, forall₂_isTrimmed_iff.mpr (map_trim_of_isLines hlines)⟩

/-! ## Changes that do not show -/

/-- The second text is the first one with a carriage return put before some of its line feeds. -/
inductive Returned : List Char → List Char → Prop
  | nil : Returned [] []
  | same (c : Char) {text text' : List Char} (h : Returned text text') :
    Returned (c :: text) (c :: text')
  | feed {text text' : List Char} (h : Returned text text') :
    Returned ('\n' :: text) ('\r' :: '\n' :: text')

theorem Returned.eq_of_notMem {text' : List Char} (h : Returned text text') (hline : '\n' ∉ text) :
    text' = text := by
  induction h with
  | nil => rfl
  | same c _ ih => rw [ih fun hmem => hline (List.mem_cons_of_mem c hmem)]
  | feed => exact absurd List.mem_cons_self hline

/-- The line at the beginning of a text stays, up to a carriage return at its end. -/
theorem Returned.exists_of_append {rest text' : List Char} (hline : '\n' ∉ line)
    (h : Returned (line ++ '\n' :: rest) text') :
    ∃ blanks rest', (blanks = [] ∨ blanks = ['\r']) ∧ Returned rest rest' ∧
      text' = line ++ blanks ++ '\n' :: rest' := by
  induction line generalizing text' with
  | nil =>
    cases h with
    | same _ h => exact ⟨[], _, .inl rfl, h, rfl⟩
    | feed h => exact ⟨['\r'], _, .inr rfl, h, rfl⟩
  | cons c line ih =>
    cases h with
    | same _ h =>
      obtain ⟨blanks, rest', hblanks, hrest, rfl⟩ :=
        ih (fun hmem => hline (List.mem_cons_of_mem c hmem)) h
      exact ⟨blanks, rest', hblanks, hrest, rfl⟩
    | feed h => exact absurd List.mem_cons_self hline

theorem map_trim_of_returned {text' : List Char} (h : Returned text text') :
    (textLines text').map Text.trim = (textLines text).map Text.trim := by
  induction text using text_induction generalizing text' with
  | nil =>
    cases h
    rfl
  | last line hline _ => rw [h.eq_of_notMem hline]
  | feed line rest hline ih =>
    obtain ⟨blanks, rest', hblanks, hrest, rfl⟩ := h.exists_of_append hline
    have hblank : ∀ c ∈ blanks, Text.isBlank c = true := by
      obtain rfl | rfl := hblanks <;> simp; decide
    have hnew : '\n' ∉ line ++ blanks := by
      obtain rfl | rfl := hblanks <;> simpa using hline
    rw [textLines_append hnew, textLines_append hline, List.map_cons, List.map_cons, ih hrest,
      trim_append line hblank]

/-- A line feed after a last line that is not empty changes no line. -/
theorem textLines_concat (text : List Char) {c : Char} (hc : c ≠ '\n') :
    textLines (text ++ [c, '\n']) = textLines (text ++ [c]) := by
  have hsingle : ∀ line, '\n' ∉ line → textLines (line ++ [c, '\n']) = textLines (line ++ [c]) := by
    intro line hline
    have hlast : '\n' ∉ line ++ [c] := by simpa [hline] using hc.symm
    have happend := textLines_append hlast []
    rw [List.append_assoc] at happend
    rw [textLines_of_notMem hlast (by simp)]
    exact happend
  induction text using text_induction with
  | nil => exact hsingle [] (by simp)
  | last line hline _ => exact hsingle line hline
  | feed line rest hline ih =>
    rw [List.append_assoc, List.append_assoc, List.cons_append, List.cons_append,
      textLines_append hline, textLines_append hline, ih]

end Jack
