import Mathlib.Data.List.DropRight
import Jack.File.Tree
import Jack.Proofs.Text.Lines
import Jack.Proofs.Text.Pieces

/-!
# Paths

A path is a text, but what can be proved of it goes by its pieces, the parts between the slashes.
They give the text back (`text_eq_intercalate`), and any row of parts without slashes is the pieces
of a path (`pieces_intercalate`). A name joined to a directory is one more piece, after a slash that
the directory may have had at its end already (`pieces_join`); everything about joining follows from
this one lemma: the components, the file name, the steps and the parent of `directory.join ⟨name⟩`.

The parent of a path leaves out more than the last component. Trailing slashes and dots make no
component, and they are dropped before the component is looked for and again after it is taken. What
is left of a path before its last component is taken is its `core`, so the parent of
`directory.join ⟨name⟩` is `directory.core` and not `directory` (`parent?_join`). The core has the
components, the parent and, up to steps that stay where they are, the steps of the path
(`components_core`, `parent?_core`, `exists_steps_core`).

A parent is shorter (`length_parent_lt`), so the ancestors of a path are all its parents
(`ancestors_of_parent?`).
-/

namespace Jack

/-- A name that a directory can hold. -/
structure ProperName (name : String) : Prop where
  ne_empty : name ≠ ""
  ne_here : name ≠ "."
  ne_up : name ≠ ".."
  noSlash : '/' ∉ name.toList

theorem properName_iff {name : String} : ProperName name ↔
    name ≠ "" ∧ name ≠ "." ∧ name ≠ ".." ∧ '/' ∉ name.toList :=
  ⟨fun h => ⟨h.1, h.2, h.3, h.4⟩, fun h => ⟨h.1, h.2.1, h.2.2.1, h.2.2.2⟩⟩

instance (name : String) : Decidable (ProperName name) := decidable_of_iff' _ properName_iff

namespace Path

variable {path directory : Path} {name : String} {names : List String}

/-! ## Pieces -/

theorem pieces_ne_nil (path : Path) : path.pieces ≠ [] := by
  simpa [pieces] using split_ne_nil '/' path.text.toList

theorem noSlash_pieces (path : Path) : ∀ piece ∈ path.pieces, '/' ∉ piece.toList := by
  unfold pieces
  rw [List.forall_mem_map]
  intro piece hpiece
  rw [String.toList_ofList]
  exact Text.notMem_of_mem_split hpiece

/-- A path is written with its pieces. -/
theorem toList_text (path : Path) :
    path.text.toList = ['/'].intercalate (path.pieces.map String.toList) := by
  have hpieces : path.pieces.map String.toList = Text.split '/' path.text.toList := by
    simp [pieces, Function.comp_def]
  rw [hpieces, Text.intercalate_split]

theorem text_eq_intercalate (path : Path) : path.text = "/".intercalate path.pieces := by
  rw [← String.toList_inj, toList_text, String.toList_intercalate]
  rfl

theorem intercalate_append {more : List String} (h : names ≠ []) (hmore : more ≠ []) :
    "/".intercalate (names ++ more) = "/".intercalate names ++ ("/" ++ "/".intercalate more) := by
  have hslash : "/".toList = ['/'] := rfl
  have hchars : names.map String.toList ≠ [] := by simpa using h
  rw [← String.toList_inj, String.toList_append, String.toList_append, String.toList_intercalate,
    String.toList_intercalate, String.toList_intercalate, List.map_append, hslash,
    Text.intercalate_append hchars (by simpa using hmore)]
  rfl

theorem length_le_intercalate (h : name ∈ names) :
    name.length ≤ ("/".intercalate names).length := by
  rw [← String.length_toList, ← String.length_toList, String.toList_intercalate]
  exact Text.length_le_intercalate (List.mem_map_of_mem h)

theorem length_le_text (path : Path) (h : name ∈ path.pieces) :
    name.length ≤ path.text.length := by
  rw [text_eq_intercalate]
  exact length_le_intercalate h

/-- The pieces before a piece leave room for it and for a slash. -/
theorem length_lt_text {more : List String} (h : path.pieces = names ++ more)
    (hne : names ≠ []) (hname : name ∈ more) :
    ("/".intercalate names).length + name.length < path.text.length := by
  have hroom := length_le_intercalate hname
  have hone : "/".length = 1 := by decide
  rw [text_eq_intercalate, h, intercalate_append hne (List.ne_nil_of_mem hname),
    String.length_append, String.length_append]
  omega

/-- A path that is written with these pieces. -/
theorem pieces_intercalate (h : ∀ piece ∈ names, '/' ∉ piece.toList) (hne : names ≠ []) :
    (⟨"/".intercalate names⟩ : Path).pieces = names := by
  have hsplit := Text.split_intercalate (List.forall_mem_map.mpr h) (by simpa using hne)
  simp only [pieces, String.toList_intercalate]
  rw [show "/".toList = ['/'] from rfl, hsplit]
  simp [Function.comp_def]

/-- A path starts at the root if its first piece is empty and not the only one. -/
theorem isAbsolute_iff :
    path.isAbsolute = true ↔ path.pieces.head? = some "" ∧ 1 < path.pieces.length := by
  have htext := path.toList_text
  have hslash := path.noSlash_pieces
  unfold isAbsolute
  obtain ⟨first, rest, hpieces⟩ := List.exists_cons_of_ne_nil path.pieces_ne_nil
  rw [hpieces] at htext hslash ⊢
  have hfirst : first.toList.head? ≠ some '/' := fun h =>
    hslash first List.mem_cons_self (List.mem_of_mem_head? h)
  cases rest with
  | nil =>
    rw [htext]
    simpa using hfirst
  | cons next rest =>
    rw [htext, List.map_cons, List.map_cons, List.intercalate_cons_cons, List.append_assoc,
      List.head?_append]
    cases hchars : first.toList with
    | nil => simpa using String.toList_eq_nil_iff.mp hchars
    | cons c cs =>
      have hne : first ≠ "" := fun h => by simp [h] at hchars
      rw [hchars] at hfirst
      simpa [hne] using hfirst

theorem text_eq_empty_iff : path.text = "" ↔ path.pieces = [""] := by
  constructor
  · intro h
    simp [pieces, h, Text.split, Text.collectPieces]
  · intro h
    have htext := path.toList_text
    rw [h] at htext
    simpa using htext

/-! ## Components -/

/-- Pieces with the components they make, where the first may be that of the root. -/
def parse (absolute : Bool) : List String → List (String × Option Component)
  | [] => []
  | piece :: pieces =>
    (piece,
      if piece = "" then if absolute then some .root else none
      else if piece = "." then some .here
      else inner? piece) :: pieces.map fun p => (p, inner? p)

theorem parsed_eq (path : Path) : path.parsed = parse path.isAbsolute path.pieces := by
  unfold parsed
  cases path.pieces <;> rfl

theorem parse_append {front : List String} (absolute : Bool) (h : front ≠ []) (more : List String) :
    parse absolute (front ++ more) =
      parse absolute front ++ more.map fun p => (p, inner? p) := by
  cases front with
  | nil => exact absurd rfl h
  | cons piece pieces => simp [parse]

theorem map_fst_parse (absolute : Bool) (pieces : List String) :
    (parse absolute pieces).map Prod.fst = pieces := by
  cases pieces <;> simp [parse, Function.comp_def]

theorem inner?_of_proper (h : ProperName name) : inner? name = some (.name name) := by
  simp [inner?, h.ne_empty, h.ne_here, h.ne_up]

theorem parse_singleton (absolute : Bool) (h : ProperName name) :
    parse absolute [name] = [(name, some (.name name))] := by
  simp [parse, h.ne_empty, h.ne_here, inner?_of_proper h]

/-- Pieces that come first are parsed as they would be alone. -/
theorem parse_of_append {absolute : Bool} {pieces : List String}
    {x y : List (String × Option Component)} (h : parse absolute pieces = x ++ y) :
    parse absolute (x.map Prod.fst) = x := by
  by_cases hx : x = []
  · rw [hx]
    rfl
  · have hpieces : pieces = x.map Prod.fst ++ y.map Prod.fst := by
      rw [← map_fst_parse absolute pieces, h, List.map_append]
    rw [hpieces, parse_append absolute (by simpa using hx)] at h
    have hlength : (parse absolute (x.map Prod.fst)).length = x.length := by
      simpa using congrArg List.length (map_fst_parse absolute (x.map Prod.fst))
    exact (List.append_inj h hlength).1

/-! ## Joining -/

theorem isAbsolute_of_noSlash (h : '/' ∉ name.toList) : (⟨name⟩ : Path).isAbsolute = false := by
  rw [isAbsolute, beq_eq_false_iff_ne]
  exact fun hhead => h (List.mem_of_mem_head? hhead)

/-- The pieces of a name below a directory are those of the directory, without the empty one that a
slash at its end makes, and the name. -/
theorem pieces_join (directory : Path) (h : '/' ∉ name.toList) :
    ∃ front, (directory.join ⟨name⟩).pieces = front ++ [name] ∧
      (directory.text ≠ "" ∧ directory.pieces = front ∨ directory.pieces = front ++ [""]) := by
  have hname : Text.split '/' name.toList = [name.toList] := Text.split_of_notMem h
  have hrelative := isAbsolute_of_noSlash h
  unfold join
  by_cases hempty : directory.text = ""
  · refine ⟨[], ?_, .inr (text_eq_empty_iff.mp hempty)⟩
    simp [hempty, pieces, hname]
  · simp only [hrelative, hempty, decide_false, Bool.or_self, Bool.false_eq_true, if_false]
    split
    · rename_i hlast
      obtain ⟨front, hfront⟩ := List.getLast?_eq_some_iff.mp hlast
      have hnil : Text.split '/' [] = [[]] := rfl
      refine ⟨(Text.split '/' front).map String.ofList, ?_, .inr ?_⟩
      · simp only [pieces, String.toList_append, hfront, List.append_assoc, List.singleton_append,
          Text.split_append, hname, List.map_append, List.map_cons, List.map_nil,
          String.ofList_toList]
      · simp only [pieces, hfront, Text.split_append, hnil, List.map_append]
        rfl
    · refine ⟨directory.pieces, ?_, .inl ⟨hempty, rfl⟩⟩
      have hslash : "/".toList = ['/'] := rfl
      simp only [pieces, String.toList_append, hslash, List.append_assoc, List.singleton_append,
        Text.split_append, hname, List.map_append, List.map_cons, List.map_nil,
        String.ofList_toList]

theorem isAbsolute_join (directory : Path) (h : '/' ∉ name.toList) :
    (directory.join ⟨name⟩).isAbsolute = directory.isAbsolute := by
  obtain ⟨front, hjoin, hdirectory⟩ := pieces_join directory h
  rw [Bool.eq_iff_iff, isAbsolute_iff, isAbsolute_iff, hjoin]
  cases front with
  | nil =>
    obtain ⟨-, hpieces⟩ | hpieces := hdirectory
    · exact absurd hpieces directory.pieces_ne_nil
    · simp [hpieces]
  | cons piece front =>
    obtain ⟨htext, hpieces⟩ | hpieces := hdirectory
    · rw [Ne, text_eq_empty_iff, hpieces] at htext
      rw [hpieces]
      cases front with
      | nil => simpa using htext
      | cons => simp
    · simp [hpieces]

/-- The directory has the same components as the path of a name below it, but for the name. -/
theorem parsed_join (directory : Path) (h : ProperName name) :
    ∃ front dropped, (directory.join ⟨name⟩).parsed = front ++ [(name, some (.name name))] ∧
      directory.parsed = front ++ dropped ∧ ∀ piece ∈ dropped, piece.2 = none := by
  obtain ⟨front, hjoin, hdirectory⟩ := pieces_join directory h.noSlash
  refine ⟨parse directory.isAbsolute front, ?_⟩
  rw [parsed_eq, parsed_eq directory, hjoin, isAbsolute_join directory h.noSlash]
  by_cases hfront : front = []
  · -- only the empty path has no piece before the name
    subst hfront
    obtain ⟨-, hpieces⟩ | hpieces := hdirectory
    · exact absurd hpieces directory.pieces_ne_nil
    · have hrelative : directory.isAbsolute = false := by
        rw [Bool.eq_false_iff, Ne, isAbsolute_iff]
        simp [hpieces]
      refine ⟨[("", none)], parse_singleton _ h, ?_, by simp⟩
      rw [hpieces, hrelative]
      rfl
  · rw [parse_append _ hfront]
    obtain ⟨-, hpieces⟩ | hpieces := hdirectory
    · exact ⟨[], by simp [inner?_of_proper h], by simp [hpieces], by simp⟩
    · refine ⟨[("", none)], by simp [inner?_of_proper h], ?_, by simp⟩
      rw [hpieces, parse_append _ hfront]
      rfl

@[simp]
theorem components_join (directory : Path) (h : ProperName name) :
    (directory.join ⟨name⟩).components = directory.components ++ [.name name] := by
  obtain ⟨front, dropped, hjoin, hdirectory, hdropped⟩ := parsed_join directory h
  have hnone : dropped.filterMap Prod.snd = [] := by simpa using hdropped
  simp [components, hjoin, hdirectory, hnone]

theorem fileName?_join (directory : Path) (h : ProperName name) :
    (directory.join ⟨name⟩).fileName? = some name := by
  simp [fileName?, components_join directory h]

theorem text_join_ne_empty (directory : Path) (h : ProperName name) :
    (directory.join ⟨name⟩).text ≠ "" := by
  intro hempty
  obtain ⟨front, hjoin, -⟩ := pieces_join directory h.noSlash
  rw [text_eq_empty_iff, hjoin] at hempty
  have hname := (List.append_inj' (show front ++ [name] = [] ++ [""] from hempty) rfl).2
  exact h.ne_empty (List.singleton_inj.mp hname)

/-- The path of a name does not end with a slash. -/
theorem getLast?_join (directory : Path) (h : ProperName name) :
    (directory.join ⟨name⟩).text.toList.getLast? ≠ some '/' := by
  obtain ⟨front, hjoin, -⟩ := pieces_join directory h.noSlash
  have htext : ∃ before, (directory.join ⟨name⟩).text.toList = before ++ name.toList := by
    rw [toList_text, hjoin, List.map_append]
    by_cases hfront : front.map String.toList = []
    · exact ⟨[], by simp [hfront]⟩
    · rw [Text.intercalate_append hfront (by simp)]
      exact ⟨['/'].intercalate (front.map String.toList) ++ ['/'], by simp⟩
  obtain ⟨before, htext⟩ := htext
  have hne : name.toList ≠ [] := by simpa using h.ne_empty
  rw [htext, List.getLast?_append_of_ne_nil _ hne]
  exact fun hlast => h.noSlash (List.mem_of_getLast? hlast)

theorem components_descend (directory : Path) (h : ∀ name ∈ names, ProperName name) :
    (directory.descend names).components = directory.components ++ names.map .name := by
  induction names generalizing directory with
  | nil => simp [descend]
  | cons name names ih =>
    obtain ⟨hname, hnames⟩ := List.forall_mem_cons.mp h
    have := ih (directory.join ⟨name⟩) hnames
    rw [components_join directory hname] at this
    simpa [descend] using this

/-! ## Parents -/

/-- The pieces of a path up to the last that makes a component. -/
def kept (path : Path) : List (String × Option Component) :=
  path.parsed.rdropWhile fun piece => piece.2.isNone

/-- The path up to its last component. -/
def core (path : Path) : Path := ofPieces path.kept

theorem parent?_of_kept {before : List (String × Option Component)} {piece : String}
    {component : Component} (h : path.kept = before ++ [(piece, some component)])
    (hroot : component ≠ .root) :
    path.parent? = some (ofPieces (before.rdropWhile fun piece => piece.2.isNone)) := by
  have hreverse : path.parsed.reverse.dropWhile (fun piece => piece.2.isNone) =
      (piece, some component) :: before.reverse := by
    rw [← List.reverse_inj, List.reverse_cons, List.reverse_reverse]
    exact h
  unfold parent?
  rw [hreverse]
  cases component with
  | root => exact absurd rfl hroot
  | here | up | name => rfl

theorem parent?_congr {path' : Path} (h : path.kept = path'.kept) :
    path.parent? = path'.parent? := by
  have hreverse := List.reverse_injective h
  unfold parent?
  rw [hreverse]

theorem rdropWhile_append {α : Type} {p : α → Bool} (front : List α) {dropped : List α}
    (h : ∀ x ∈ dropped, p x = true) :
    (front ++ dropped).rdropWhile p = front.rdropWhile p := by
  unfold List.rdropWhile
  rw [List.reverse_append, List.dropWhile_append_of_pos (by simpa using h)]

/-- The parent of a name is the directory that holds it. -/
theorem parent?_join (directory : Path) (h : ProperName name) :
    (directory.join ⟨name⟩).parent? = some directory.core := by
  obtain ⟨front, dropped, hjoin, hdirectory, hdropped⟩ := parsed_join directory h
  have hkept : (directory.join ⟨name⟩).kept = front ++ [(name, some (.name name))] := by
    rw [kept, hjoin, List.rdropWhile_concat_neg _ _ _ (by simp)]
  rw [parent?_of_kept hkept (by simp), core, kept, hdirectory,
    rdropWhile_append front fun piece hpiece => by simp [hdropped piece hpiece]]

/-- What is left out behind the last component makes no component. -/
theorem exists_dropped (path : Path) :
    ∃ dropped, path.parsed = path.kept ++ dropped ∧ ∀ piece ∈ dropped, piece.2 = none :=
  ⟨_, (List.rdropWhile_append_rtakeWhile).symm, fun piece hpiece => by
    simpa using List.mem_rtakeWhile_imp hpiece⟩

theorem ofPieces_of_ne {pieces : List (String × Option Component)}
    (h : ∀ piece, pieces ≠ [(piece, some .root)]) :
    ofPieces pieces = ⟨"/".intercalate (pieces.map Prod.fst)⟩ := by
  unfold ofPieces
  split
  · exact absurd rfl (h _)
  · rfl

/-- The first piece of a path that is not empty makes a component. -/
theorem exists_first (h : path.text ≠ "") :
    ∃ piece component rest, path.parsed = (piece, some component) :: rest := by
  rw [Ne, text_eq_empty_iff] at h
  obtain ⟨piece, pieces, hpieces⟩ := List.exists_cons_of_ne_nil path.pieces_ne_nil
  rw [parsed_eq, hpieces, parse]
  by_cases hempty : piece = ""
  · have habsolute : path.isAbsolute = true := by
      rw [isAbsolute_iff, hpieces]
      cases pieces with
      | nil => exact absurd (hempty ▸ hpieces) h
      | cons => simp [hempty]
    simp [hempty, habsolute]
  · by_cases hhere : piece = "."
    · simp [hhere]
    · by_cases hup : piece = ".." <;> simp [inner?, hempty, hhere, hup]

theorem eq_of_text_eq_empty (h : path.text = "") : path = ⟨""⟩ := by
  cases path
  exact congrArg Path.mk h

/-- Only the empty path has no component. -/
theorem kept_eq_nil_iff : path.kept = [] ↔ path.text = "" := by
  constructor
  · intro hnil
    by_contra h
    obtain ⟨piece, component, rest, hparsed⟩ := exists_first h
    rw [kept, List.rdropWhile_eq_nil_iff, hparsed] at hnil
    simp at hnil
  · intro hempty
    rw [eq_of_text_eq_empty hempty]
    decide

theorem parse_kept (path : Path) : parse path.isAbsolute (path.kept.map Prod.fst) = path.kept := by
  obtain ⟨dropped, hparsed, -⟩ := path.exists_dropped
  rw [parsed_eq] at hparsed
  exact parse_of_append hparsed

/-- Paths with the same pieces up to the last component are alike but for what follows it. -/
theorem exists_pieces (h : path.text ≠ "") :
    ∃ more, path.pieces = path.kept.map Prod.fst ++ more ∧ ∀ piece ∈ more, inner? piece = none := by
  obtain ⟨dropped, hparsed, hdropped⟩ := path.exists_dropped
  have hpieces : path.pieces = path.kept.map Prod.fst ++ dropped.map Prod.fst := by
    rw [← map_fst_parse path.isAbsolute path.pieces, ← parsed_eq, hparsed, List.map_append]
  refine ⟨dropped.map Prod.fst, hpieces, ?_⟩
  rw [parsed_eq, hpieces, parse_append _ (by simpa [kept_eq_nil_iff] using h), parse_kept]
    at hparsed
  intro piece hpiece
  have hmem : (piece, inner? piece) ∈ dropped := by
    rw [← List.append_cancel_left hparsed]
    exact List.mem_map_of_mem hpiece
  exact hdropped _ hmem

/-- The path up to its last component is the root, or is written with the pieces up to there. -/
theorem core_cases (h : path.text ≠ "") :
    path.isAbsolute = true ∧ path.kept = [("", some .root)] ∧ path.core = ⟨"/"⟩ ∨
    path.core.pieces = path.kept.map Prod.fst ∧ path.core.isAbsolute = path.isAbsolute := by
  obtain ⟨more, hpieces, -⟩ := exists_pieces h
  have hne := kept_eq_nil_iff.not.mpr h
  have hparse := path.parse_kept
  by_cases hroot : ∃ piece, path.kept = [(piece, some .root)]
  · obtain ⟨piece, hkept⟩ := hroot
    have hcore : path.core = ⟨"/"⟩ := by
      rw [core, hkept]
      rfl
    rw [hkept, List.map_singleton, parse] at hparse
    by_cases hempty : piece = ""
    · by_cases habsolute : path.isAbsolute = true
      · exact .inl ⟨habsolute, hempty ▸ hkept, hcore⟩
      · simp [hempty, habsolute] at hparse
    · by_cases hhere : piece = "." <;> by_cases hup : piece = ".." <;>
        simp_all [inner?]
  · have hcore : path.core.pieces = path.kept.map Prod.fst := by
      rw [core, ofPieces_of_ne fun piece hkept => hroot ⟨piece, hkept⟩]
      refine pieces_intercalate (fun piece hpiece => ?_) (by simpa using hne)
      exact path.noSlash_pieces piece (hpieces ▸ List.mem_append_left more hpiece)
    refine .inr ⟨hcore, ?_⟩
    obtain ⟨first, rest, hkept⟩ := List.exists_cons_of_ne_nil hne
    cases rest with
    | nil =>
      -- a single empty piece is that of the root
      have hrelative : path.isAbsolute = false := by
        rw [Bool.eq_false_iff]
        intro habsolute
        have hempty : first.1 = "" := by
          simpa [hpieces, hkept] using (isAbsolute_iff.mp habsolute).1
        rw [hkept, habsolute, List.map_singleton, hempty] at hparse
        exact hroot ⟨"", hkept.trans hparse.symm⟩
      rw [hrelative, Bool.eq_false_iff, Ne, isAbsolute_iff, hcore, hkept]
      simp
    | cons next rest =>
      rw [Bool.eq_iff_iff, isAbsolute_iff, isAbsolute_iff, hcore, hpieces, hkept]
      simp

theorem isAbsolute_core (path : Path) : path.core.isAbsolute = path.isAbsolute := by
  by_cases htext : path.text = ""
  · rw [eq_of_text_eq_empty htext]
    decide
  · obtain ⟨habsolute, -, hcore⟩ | ⟨-, hcore⟩ := core_cases htext
    · rw [hcore, habsolute]
      decide
    · exact hcore

theorem kept_core (path : Path) : path.core.kept = path.kept := by
  by_cases htext : path.text = ""
  · rw [eq_of_text_eq_empty htext]
    decide
  · obtain ⟨-, hkept, hcore⟩ | ⟨hpieces, habsolute⟩ := core_cases htext
    · rw [hcore, hkept]
      decide
    · rw [kept, parsed_eq, habsolute, hpieces, parse_kept]
      exact List.rdropWhile_idempotent _ _

theorem text_core_eq_empty_iff : path.core.text = "" ↔ path.text = "" := by
  rw [← kept_eq_nil_iff, kept_core, kept_eq_nil_iff]

/-- The parent of a path is that of the path up to its last component. -/
theorem parent?_core (path : Path) : path.core.parent? = path.parent? :=
  parent?_congr path.kept_core

/-- Only what makes a component counts. -/
theorem components_core (path : Path) : path.core.components = path.components := by
  have hkept : ∀ path : Path, path.components = path.kept.filterMap Prod.snd := by
    intro path
    obtain ⟨dropped, hparsed, hdropped⟩ := path.exists_dropped
    have hnone : dropped.filterMap Prod.snd = [] := by simpa using hdropped
    rw [components, hparsed, List.filterMap_append, hnone, List.append_nil]
  rw [hkept, hkept, kept_core]

/-! ## Steps -/

/-- Behind the last component there are only steps that lead nowhere else. -/
theorem exists_steps_core (path : Path) :
    ∃ n, FileTree.steps path = FileTree.steps path.core ++ List.replicate n .here := by
  by_cases htext : path.text = ""
  · refine ⟨0, ?_⟩
    rw [eq_of_text_eq_empty htext]
    decide
  · obtain ⟨more, hpieces, hmore⟩ := exists_pieces htext
    have hkept : FileTree.steps path.core = (path.kept.map Prod.fst).filterMap
        fun piece => if piece = "." then some .here else inner? piece := by
      obtain ⟨-, hkept, hcore⟩ | ⟨hcore, -⟩ := core_cases htext
      · rw [hcore, hkept]
        decide
      · rw [FileTree.steps, hcore]
    have hrest : ∀ step ∈ more.filterMap
        (fun piece => if piece = "." then some .here else inner? piece), step = .here := by
      intro step hstep
      obtain ⟨piece, hpiece, hstep⟩ := List.mem_filterMap.mp hstep
      split at hstep
      · exact (Option.some.inj hstep).symm
      · simp [hmore piece hpiece] at hstep
    rw [hkept, FileTree.steps, hpieces, List.filterMap_append,
      List.eq_replicate_of_mem hrest]
    exact ⟨_, rfl⟩

theorem steps_join_of_noSlash (directory : Path) (h : '/' ∉ name.toList) :
    FileTree.steps (directory.join ⟨name⟩) = FileTree.steps directory ++
      [name].filterMap fun piece => if piece = "." then some .here else inner? piece := by
  obtain ⟨front, hjoin, hdirectory⟩ := pieces_join directory h
  have hempty : inner? "" = none := rfl
  unfold FileTree.steps
  rw [hjoin, List.filterMap_append]
  obtain ⟨-, hpieces⟩ | hpieces := hdirectory <;> simp [hpieces, hempty]

theorem steps_join (directory : Path) (h : ProperName name) :
    FileTree.steps (directory.join ⟨name⟩) = FileTree.steps directory ++ [.name name] := by
  rw [steps_join_of_noSlash directory h.noSlash]
  simp [h.ne_here, inner?_of_proper h]

/-! ## Ancestors -/

/-- A piece that makes a component other than the root is not empty. -/
theorem ne_empty_of_mem_parse {absolute : Bool} {pieces : List String} {piece : String}
    {component : Component} (h : (piece, some component) ∈ parse absolute pieces)
    (hroot : component ≠ .root) : piece ≠ "" := by
  rintro rfl
  have hempty : inner? "" = none := rfl
  cases pieces with
  | nil => simp [parse] at h
  | cons first pieces =>
    obtain hfirst | hrest := List.mem_cons.mp h
    · obtain ⟨rfl, hcomponent⟩ := Prod.mk.inj hfirst
      cases absolute with
      | false => simp at hcomponent
      | true => exact hroot (by simpa using hcomponent)
    · obtain ⟨piece, -, hpiece⟩ := List.mem_map.mp hrest
      obtain ⟨rfl, hcomponent⟩ := Prod.mk.inj hpiece
      simp [hempty] at hcomponent

/-- A path with a parent ends with a component that is not the root. -/
theorem kept_of_parent? {parent : Path} (h : path.parent? = some parent) :
    ∃ before piece component, path.kept = before ++ [(piece, some component)] ∧
      component ≠ .root ∧ piece ≠ "" ∧
      parent = ofPieces (before.rdropWhile fun piece => piece.2.isNone) := by
  have hreverse : path.parsed.reverse.dropWhile (fun piece => piece.2.isNone) =
      path.kept.reverse := by
    simp [kept, List.rdropWhile]
  unfold parent? at h
  rw [hreverse] at h
  obtain hkept | ⟨before, ⟨piece, component⟩, hkept⟩ := List.eq_nil_or_concat' path.kept
  · simp [hkept] at h
  · rw [hkept, List.reverse_append] at h
    cases component with
    | none =>
      have hlast := List.rdropWhile_last_not (fun piece => piece.2.isNone) path.parsed
        (by simp [← kept.eq_1, hkept])
      simp [← kept.eq_1, hkept] at hlast
    | some component =>
      have hmem : (piece, some component) ∈ parse path.isAbsolute (path.kept.map Prod.fst) := by
        rw [parse_kept, hkept]
        simp
      refine ⟨before, piece, component, hkept, ?_⟩
      cases component with
      | root => cases h
      | here | up | name =>
        exact ⟨by simp, ne_empty_of_mem_parse hmem (by simp), (Option.some.inj h).symm⟩

/-- A parent is written with fewer characters. -/
theorem length_parent_lt {parent : Path} (h : path.parent? = some parent) :
    parent.text.length < path.text.length := by
  obtain ⟨before, piece, component, hkept, hroot, hne, rfl⟩ := kept_of_parent? h
  have hpiece : 0 < piece.length := by
    rw [← String.length_toList]
    exact List.length_pos_iff.mpr (by simpa using hne)
  have htext : path.text ≠ "" := by
    intro hempty
    simp [kept_eq_nil_iff.mpr hempty] at hkept
  obtain ⟨more, hpieces, -⟩ := exists_pieces htext
  have hbefore : before.rdropWhile (fun piece => piece.2.isNone) ++
      before.rtakeWhile (fun piece => piece.2.isNone) = before := List.rdropWhile_append_rtakeWhile
  rw [hkept, ← hbefore] at hpieces
  generalize before.rdropWhile (fun piece => piece.2.isNone) = front at hpieces ⊢
  simp only [List.map_append, List.append_assoc] at hpieces
  have hmem : piece ∈ (before.rtakeWhile fun piece => piece.2.isNone).map Prod.fst ++
      ([(piece, some component)].map Prod.fst ++ more) := by simp
  by_cases hnil : front = []
  · have hle := path.length_le_text (hpieces ▸ List.mem_append_right _ hmem)
    rw [hnil]
    change "".length < _
    exact hpiece.trans_le hle
  · have hlt := length_lt_text hpieces (by simpa using hnil) hmem
    by_cases hfront : ∃ first, front = [(first, some .root)]
    · obtain ⟨first, rfl⟩ := hfront
      change "/".length < _
      have hone : "/".length = 1 := by decide
      omega
    · rw [ofPieces_of_ne fun first hfirst => hfront ⟨first, hfirst⟩]
      change ("/".intercalate (front.map Prod.fst)).length < _
      omega

theorem ancestorsWithin_of_none (h : path.parent? = none) (bound : Nat) :
    ancestorsWithin bound path = [path] := by
  cases bound with
  | zero => rfl
  | succ bound => simp [ancestorsWithin, h]

/-- A bound that covers the characters of a path covers its ancestors. -/
theorem ancestorsWithin_eq {bound bound' : Nat} (h : path.text.length ≤ bound)
    (h' : path.text.length ≤ bound') :
    ancestorsWithin bound path = ancestorsWithin bound' path := by
  induction bound generalizing path bound' with
  | zero =>
    cases hparent : path.parent? with
    | none => rw [ancestorsWithin_of_none hparent, ancestorsWithin_of_none hparent]
    | some parent =>
      have := length_parent_lt hparent
      omega
  | succ bound ih =>
    cases hparent : path.parent? with
    | none => rw [ancestorsWithin_of_none hparent, ancestorsWithin_of_none hparent]
    | some parent =>
      have hlength := length_parent_lt hparent
      obtain ⟨bound', rfl⟩ : ∃ n, bound' = n + 1 := ⟨bound' - 1, by omega⟩
      simp only [ancestorsWithin, hparent]
      rw [@ih parent bound' (by omega) (by omega)]

/-- The ancestors of a path are the path and the ancestors of its parent. -/
theorem ancestors_of_parent? {parent : Path} (h : path.parent? = some parent) :
    path.ancestors = path :: parent.ancestors := by
  have hlength := length_parent_lt h
  obtain ⟨bound, hbound⟩ : ∃ n, path.text.length = n + 1 := ⟨path.text.length - 1, by omega⟩
  simp only [ancestors, hbound, ancestorsWithin, h]
  rw [ancestorsWithin_eq (by omega : parent.text.length ≤ bound) le_rfl]

theorem ancestors_of_none (h : path.parent? = none) : path.ancestors = [path] :=
  ancestorsWithin_of_none h _

/-! ## Relative paths -/

theorem relativeTo?_descend {row : List String} (h : path.components =
    directory.components ++ row.map .name) :
    path.relativeTo? directory = some ⟨"/".intercalate row⟩ := by
  simp [relativeTo?, h, Function.comp_def, Component.text]

theorem descend_concat (directory : Path) (names : List String) (name : String) :
    directory.descend (names ++ [name]) = (directory.descend names).join ⟨name⟩ := by
  simp [descend]

theorem intercalate_concat (h : names ≠ []) (name : String) :
    "/".intercalate (names ++ [name]) = "/".intercalate names ++ ("/" ++ name) := by
  rw [intercalate_append h (by simp)]
  simp

theorem join_append (directory : Path) {first : String} (h : first ≠ "") (more : String) :
    directory.join ⟨first ++ more⟩ = ⟨(directory.join ⟨first⟩).text ++ more⟩ := by
  have hchars : first.toList ≠ [] := by simpa using h
  have habsolute : (⟨first ++ more⟩ : Path).isAbsolute = (⟨first⟩ : Path).isAbsolute := by
    simp only [isAbsolute, String.toList_append]
    rw [List.head?_append_of_ne_nil _ hchars]
  unfold join
  rw [habsolute]
  split
  · rfl
  · split <;> simp [String.append_assoc]

/-- A slash is written between two names. -/
theorem join_join (directory : Path) {first second : String} (h : ProperName first)
    (hsecond : ProperName second) : (directory.join ⟨first⟩).join ⟨second⟩ =
      ⟨(directory.join ⟨first⟩).text ++ ("/" ++ second)⟩ := by
  rw [join, if_neg, if_neg (getLast?_join directory h), String.append_assoc]
  simp [isAbsolute_of_noSlash hsecond.noSlash, text_join_ne_empty directory h]

/-- Every path is that of its last piece below the rest. -/
theorem exists_join (path : Path) :
    ∃ (directory : Path) (name : String), path = directory.join ⟨name⟩ ∧ '/' ∉ name.toList := by
  obtain hnil | ⟨front, name, hpieces⟩ := List.eq_nil_or_concat' path.pieces
  · exact absurd hnil path.pieces_ne_nil
  · have hname : '/' ∉ name.toList := path.noSlash_pieces name (by simp [hpieces])
    have hrelative := isAbsolute_of_noSlash hname
    have hpath : path = ⟨"/".intercalate (front ++ [name])⟩ :=
      congrArg Path.mk (hpieces ▸ path.text_eq_intercalate)
    by_cases hfront : front = []
    · exact ⟨⟨""⟩, name, by simp [hpath, hfront, join], hname⟩
    · refine ⟨⟨"/".intercalate front ++ "/"⟩, name, ?_, hname⟩
      rw [hpath, intercalate_concat hfront]
      simp [join, hrelative, String.append_assoc]

/-- The parent of a path holds the last piece that makes a component. -/
theorem exists_join_of_parent? {parent : Path} (h : path.parent? = some parent) :
    ∃ (directory : Path) (name : String), path.core = directory.join ⟨name⟩ ∧
      '/' ∉ name.toList ∧ name ≠ "" ∧ parent = directory.core := by
  obtain ⟨before, piece, component, hkept, hroot, hpiece, rfl⟩ := kept_of_parent? h
  have htext : path.text ≠ "" := by
    intro hempty
    simp [kept_eq_nil_iff.mpr hempty] at hkept
  obtain ⟨-, hroots, -⟩ | ⟨hpieces, habsolute⟩ := core_cases htext
  · rw [hkept, List.append_eq_singleton_iff] at hroots
    simp [hroot] at hroots
  · obtain ⟨directory, name, hjoin, hslash⟩ := path.core.exists_join
    obtain ⟨front, hfront, hdirectory⟩ := pieces_join directory hslash
    rw [← hjoin, hpieces, hkept, List.map_append] at hfront
    obtain ⟨rfl, hname⟩ := List.append_inj' hfront rfl
    obtain rfl : piece = name := List.singleton_inj.mp hname
    refine ⟨directory, piece, hjoin, hslash, hpiece, ?_⟩
    have hbefore : parse directory.isAbsolute (before.map Prod.fst) = before := by
      rw [← isAbsolute_join directory hslash, ← hjoin, habsolute]
      exact parse_of_append (path.parse_kept.trans hkept)
    rw [core, kept, parsed_eq]
    obtain ⟨-, hdirectory⟩ | hdirectory := hdirectory
    · rw [hdirectory, hbefore]
    · cases before with
      | nil =>
        have hrelative : directory.isAbsolute = false := by
          rw [Bool.eq_false_iff, Ne, isAbsolute_iff, hdirectory]
          simp
        rw [hdirectory, hrelative]
        rfl
      | cons first more =>
        rw [hdirectory, parse_append _ (by simp), hbefore, rdropWhile_append]
        simp [inner?]

/-- The ancestors of a path go no other way. -/
theorem steps_subset_of_mem_ancestors {ancestor : Path} (h : ancestor ∈ path.ancestors) :
    FileTree.steps ancestor ⊆ FileTree.steps path := by
  unfold ancestors at h
  generalize path.text.length = bound at h
  have hcore : ∀ path : Path, FileTree.steps path.core ⊆ FileTree.steps path := by
    intro path
    obtain ⟨n, hsteps⟩ := path.exists_steps_core
    rw [hsteps]
    exact List.subset_append_left _ _
  induction bound generalizing path with
  | zero => simp [List.mem_singleton.mp h]
  | succ bound ih =>
    obtain rfl | h := List.mem_cons.mp h
    · exact List.Subset.refl _
    · cases hparent : path.parent? with
      | none => simp [hparent] at h
      | some parent =>
        have hbelow := ih (by simpa [hparent] using h)
        obtain ⟨directory, name, hjoin, hslash, -, rfl⟩ := exists_join_of_parent? hparent
        have hdirectory : FileTree.steps directory ⊆ FileTree.steps path.core := by
          rw [hjoin, steps_join_of_noSlash directory hslash]
          exact List.subset_append_left _ _
        exact fun step hstep => hcore path (hdirectory (hcore directory (hbelow hstep)))

/-- A slash at the end changes nothing but the text. -/
theorem slash_of_join_empty (h : path.text ≠ "") : (path.join ⟨""⟩).text ≠ "" ∧
    (path.join ⟨""⟩).isAbsolute = path.isAbsolute ∧
    FileTree.steps (path.join ⟨""⟩) = FileTree.steps path ∧
    (path.join ⟨""⟩).parent? = path.parent? := by
  have habsolute := isAbsolute_join path (show '/' ∉ "".toList by simp)
  have hsteps : FileTree.steps (path.join ⟨""⟩) = FileTree.steps path := by
    have hempty : inner? "" = none := rfl
    simp [steps_join_of_noSlash path (show '/' ∉ "".toList by simp), hempty]
  obtain ⟨front, hjoin, hpieces⟩ := pieces_join path (show '/' ∉ "".toList by simp)
  have hkept : (path.join ⟨""⟩).kept = path.kept := by
    rw [kept, kept, parsed_eq, parsed_eq, habsolute, hjoin]
    obtain ⟨-, hpieces⟩ | hpieces := hpieces
    · have hne : front ≠ [] := hpieces ▸ path.pieces_ne_nil
      rw [hpieces, parse_append _ hne, rdropWhile_append]
      simp [inner?]
    · rw [hpieces]
  refine ⟨fun hempty => h ?_, habsolute, hsteps, parent?_congr hkept⟩
  rw [← kept_eq_nil_iff, ← hkept, kept_eq_nil_iff]
  exact hempty

/-- A path that is joined to a directory without a name ends with a slash. -/
theorem join_empty (directory : Path) : (directory.join ⟨""⟩).text = "" ∨
    (directory.join ⟨""⟩).text.toList.getLast? = some '/' := by
  unfold join
  split
  · exact .inl rfl
  · split
    · rename_i hlast
      exact .inr (by simpa using hlast)
    · exact .inr (by simp)

/-- A row of names below a directory is joined to it at once or one by one. -/
theorem join_intercalate (directory : Path) (h : ∀ name ∈ names, ProperName name)
    (hne : names ≠ []) : directory.join ⟨"/".intercalate names⟩ = directory.descend names := by
  induction names using List.reverseRecOn with
  | nil => exact absurd rfl hne
  | append_singleton row name ih =>
    obtain ⟨hrow, hname⟩ := List.forall_mem_append.mp h
    rw [List.forall_mem_singleton] at hname
    obtain rfl | ⟨before, last, rfl⟩ := List.eq_nil_or_concat' row
    · simp [descend]
    · have hlast : ProperName last := hrow last (by simp)
      have hfirst : "/".intercalate (before ++ [last]) ≠ "" := by
        intro hempty
        have hpieces := pieces_intercalate (fun piece hpiece => (hrow piece hpiece).noSlash)
          (by simp)
        rw [hempty, text_eq_empty_iff.mp rfl] at hpieces
        have hmem : last ∈ [""] := hpieces ▸ List.mem_append_right before List.mem_cons_self
        exact hlast.ne_empty (List.mem_singleton.mp hmem)
      rw [intercalate_concat (by simp), join_append directory hfirst, ih hrow (by simp),
        descend_concat, descend_concat, descend_concat, join_join _ hlast hname]

/-! ## File names -/

/-- A file name is split at its last dot, unless that is in front. -/
theorem splitName_eq_iff {stem extension : String} :
    splitName name = (stem, some extension) ↔
      stem ≠ "" ∧ '.' ∉ extension.toList ∧ name = stem ++ "." ++ extension := by
  have hsplit : name.toList.reverse.takeWhile (· != '.') ++
      name.toList.reverse.dropWhile (· != '.') = name.toList.reverse :=
    List.takeWhile_append_dropWhile
  constructor
  · intro h
    unfold splitName at h
    dsimp only at h
    split at h
    · rename_i dot before hdrop
      split at h
      · cases h
      · rename_i hbefore
        obtain ⟨rfl, hextension⟩ := Prod.mk.inj h
        obtain rfl := Option.some.inj hextension
        have hdot : dot = '.' := by
          have hhead := List.head?_dropWhile_not (· != '.') name.toList.reverse
          rw [hdrop] at hhead
          simpa using hhead
        refine ⟨by simpa using hbefore, fun hmem => ?_, ?_⟩
        · have := List.mem_takeWhile_imp (List.mem_reverse.mp (String.toList_ofList ▸ hmem))
          simp at this
        · rw [hdrop, hdot] at hsplit
          have hname := congrArg List.reverse hsplit
          rw [List.reverse_reverse] at hname
          exact String.toList_inj.mp (hname.symm.trans (by simp))
    · cases h
  · rintro ⟨hstem, hextension, rfl⟩
    have hreverse : (stem ++ "." ++ extension).toList.reverse =
        extension.toList.reverse ++ '.' :: stem.toList.reverse := by simp
    have hplain : ∀ c ∈ extension.toList.reverse, (c != '.') = true := by
      intro c hc
      rw [bne_iff_ne]
      rintro rfl
      exact hextension (List.mem_reverse.mp hc)
    have hnonempty : stem.toList ≠ [] := by simpa using hstem
    unfold splitName
    simp only [hreverse, List.dropWhile_append_of_pos hplain, List.takeWhile_append_of_pos hplain]
    simp [hnonempty]

/-- The stem of a file name has no other characters. -/
theorem mem_of_mem_stem {c : Char} (h : c ∈ (splitName name).1.toList) : c ∈ name.toList := by
  obtain ⟨stem, extension, hsplit⟩ : ∃ stem extension, splitName name = (stem, extension) :=
    ⟨_, _, rfl⟩
  rw [hsplit] at h
  cases extension with
  | some extension =>
    obtain ⟨-, -, rfl⟩ := splitName_eq_iff.mp hsplit
    simp [h]
  | none =>
    unfold splitName at hsplit
    dsimp only at hsplit
    split at hsplit
    · split at hsplit <;> cases hsplit
      exact h
    · cases hsplit
      exact h

end Path

end Jack
