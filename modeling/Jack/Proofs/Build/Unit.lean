import Jack.Build
import Jack.Proofs.Delivery.Listing
import Jack.Proofs.File.Directories

/-!
# Building a unit

A unit is built in two halves. The first half reads the source and compiles it (`product`); it
changes nothing. The second half makes the output directory, writes the code and writes the token
listing (`deliver`). It ends at the first of these steps that fails, with what was done before it,
because nothing is taken back (`Delivery`). A write that fails may itself have changed the file that
it was to write, and no other (`Disk.written_of_error`).

What a source gives is its code as `compile` returns it and, if that is asked for, the listing of
all its tokens (`product_eq_ok_iff`).
-/

namespace Jack

namespace FileTree

variable {tree tree' : FileTree} {location : Location} {path : Path}

/-- A file in a place where no directory is takes no directory away. -/
theorem extends_put (h : tree.node? location ≠ some .directory) (content : ByteArray) :
    tree.Extends (tree.put location (.file content)) where
  working := rfl
  directory {other} hother := by
    have hne : location ≠ [] := by
      rintro rfl
      simp at h
    rw [node?_put tree hne, if_neg]
    · exact hother
    · rintro rfl
      exact h hother

/-- The trees differ at most in the file to which the path leads, and that holds the content. -/
structure Written (path : Path) (content : ByteArray) (tree tree' : FileTree) : Prop where
  toExtends : tree.Extends tree'
  changed : ∀ location, tree'.node? location ≠ tree.node? location →
    tree'.find path = .ok location ∧ tree'.node? location = some (.file content)

theorem written_put (hfind : tree.find path = .ok location)
    (hnode : tree.node? location ≠ some .directory) (content : ByteArray) :
    tree.Written path content (tree.put location (.file content)) where
  toExtends := extends_put hnode content
  changed other hne := by
    have hplace : location ≠ [] := by
      rintro rfl
      simp at hnode
    rw [node?_put tree hplace] at hne ⊢
    by_cases hother : location = other
    · rw [if_pos hother]
      exact ⟨hother ▸ (extends_put hnode content).find hfind, rfl⟩
    · exact absurd (if_neg hother) hne

end FileTree

namespace Disk

variable {disk : Disk} {tree tree' : FileTree} {path : Path} {content : ByteArray}
  {location : Location}

theorem readBytes_cases (disk : Disk) (path : Path) (tree : FileTree) :
    (∃ bytes, disk.readBytes path tree = .ok bytes tree) ∨
      ∃ e, disk.readBytes path tree = .error e tree := by
  unfold readBytes
  split
  · exact .inr ⟨_, rfl⟩
  · split
    · split
      · exact .inr ⟨_, rfl⟩
      · exact .inl ⟨_, rfl⟩
    · exact .inr ⟨_, rfl⟩
    · exact .inr ⟨_, rfl⟩

theorem readBytes_reliable (h : tree.find path = .ok location)
    (hnode : tree.node? location = some (.file content)) :
    reliable.readBytes path tree = .ok content tree := by
  simp [readBytes, reliable, h, hnode]

theorem readText_of_some {bytes : ByteArray} {text : String}
    (h : disk.readBytes path tree = .ok bytes tree) (htext : String.fromUTF8? bytes = some text) :
    disk.readText path tree = .ok text tree := by
  simp only [readText, bind, EStateM.bind, h, htext]
  rfl

theorem readText_of_none {bytes : ByteArray} (h : disk.readBytes path tree = .ok bytes tree)
    (htext : String.fromUTF8? bytes = none) : disk.readText path tree = .error .notText tree := by
  simp only [readText, bind, EStateM.bind, h, htext]
  rfl

theorem readText_of_error {e : FileError} (h : disk.readBytes path tree = .error e tree) :
    disk.readText path tree = .error e tree := by
  simp only [readText, bind, EStateM.bind, h]

/-- Reading changes nothing. -/
theorem readText_cases (disk : Disk) (path : Path) (tree : FileTree) :
    (∃ text, disk.readText path tree = .ok text tree) ∨
      ∃ e, disk.readText path tree = .error e tree := by
  obtain ⟨bytes, hbytes⟩ | ⟨e, herror⟩ := readBytes_cases disk path tree
  · cases htext : String.fromUTF8? bytes with
    | some text => exact .inl ⟨text, readText_of_some hbytes htext⟩
    | none => exact .inr ⟨.notText, readText_of_none hbytes htext⟩
  · exact .inr ⟨e, readText_of_error herror⟩

/-- The write of a file can break off after some of its bytes. -/
def BreaksOff (disk : Disk) (path : Path) (content : ByteArray) (taken : Nat) : Prop :=
  ∃ tree e, disk.writeFailure? tree path content = some (.broken taken e)

theorem written_of_ok (h : disk.writeBytes path content tree = .ok () tree') :
    tree.Written path content tree' := by
  unfold writeBytes at h
  split at h
  · cases h
  · split at h
    · cases h
    · split at h <;> cases h
      exact FileTree.written_put ‹_› ‹_› content

/-- A write that fails changes nothing, or it has broken off and the file holds its first bytes. -/
theorem written_of_error {e : FileError} (h : disk.writeBytes path content tree = .error e tree') :
    tree' = tree ∨
      ∃ taken, disk.BreaksOff path content taken ∧
        tree.Written path (content.extract 0 taken) tree' := by
  unfold writeBytes at h
  split at h
  · cases h
    exact .inl rfl
  · split at h
    · cases h
      exact .inl rfl
    · split at h <;> cases h
      · exact .inl rfl
      · exact .inr ⟨_, ⟨tree, e, ‹_›⟩, FileTree.written_put ‹_› ‹_› _⟩

theorem writeBytes_reliable (h : tree.find path = .ok location)
    (hnode : tree.node? location ≠ some .directory) (content : ByteArray) :
    reliable.writeBytes path content tree = .ok () (tree.put location (.file content)) := by
  unfold writeBytes
  rw [h]
  cases hfound : tree.node? location with
  | none => simp [hfound, reliable]
  | some node =>
    cases node with
    | file other => simp [hfound, reliable]
    | directory => exact absurd hfound hnode

end Disk

namespace Build

variable {disk : Disk} {settings : Settings} {root source path : Path} {tree tree' : FileTree}
  {code : String} {listing : Option ByteArray} {e : BuildError}

/-! ## The two halves of a unit -/

/-- What a source gives: the code of its unit, and the bytes of its token listing if that is asked
for. -/
def product (disk : Disk) (settings : Settings) (source : Path) (tree : FileTree) :
    Except BuildError (String × Option ByteArray) :=
  match disk.readText source tree with
  | .error e _ => .error (.file e)
  | .ok text _ =>
    match compileUnit settings source.stem text with
    | (.error e, _) => .error (.compile e)
    | (.ok code, listing) => .ok (code, listing)

/-- Where the code of a source goes. -/
def codePath (settings : Settings) (root source : Path) : Path :=
  (outputDirectory settings root source).join ⟨source.stem ++ ".vm"⟩

/-- Where the token listing of a source goes. -/
def listingPath (settings : Settings) (root source : Path) : Path :=
  (outputDirectory settings root source).join ⟨source.stem ++ "T.xml"⟩

/-- Write what a source gives. -/
def deliver (disk : Disk) (settings : Settings) (root source : Path) (code : String)
    (listing : Option ByteArray) : Build Path := do
  files (disk.makeDirectories (outputDirectory settings root source))
  files (disk.writeBytes (codePath settings root source) code.toUTF8)
  if let some bytes := listing then
    files (disk.writeBytes (listingPath settings root source) bytes)
  return codePath settings root source

theorem bind_files_of_ok {α β : Type} {operation : Files α} {next : α → Build β} {a : α}
    (h : operation tree = .ok a tree') : (files operation >>= next) tree = next a tree' := by
  simp only [bind, EStateM.bind, files, h]

theorem bind_files_of_error {α β : Type} {operation : Files α} {next : α → Build β}
    {error : FileError} (h : operation tree = .error error tree') :
    (files operation >>= next) tree = .error (.file error) tree' := by
  simp only [bind, EStateM.bind, files, h]

theorem unit_of_error (h : product disk settings source tree = .error e) (root : Path) :
    unit disk settings root source tree = .error e tree := by
  unfold product at h
  unfold unit
  obtain ⟨text, htext⟩ | ⟨error, herror⟩ := Disk.readText_cases disk source tree
  · rw [bind_files_of_ok htext]
    rw [htext] at h
    cases hunit : compileUnit settings source.stem text with
    | mk result listing =>
      cases result with
      | error error =>
        simp only [hunit] at h ⊢
        cases h
        rfl
      | ok code => simp [hunit] at h
  · rw [bind_files_of_error herror]
    rw [herror] at h
    cases h
    rfl

theorem unit_of_ok (h : product disk settings source tree = .ok (code, listing)) (root : Path) :
    unit disk settings root source tree = deliver disk settings root source code listing tree := by
  unfold product at h
  unfold unit
  obtain ⟨text, htext⟩ | ⟨error, herror⟩ := Disk.readText_cases disk source tree
  · rw [bind_files_of_ok htext]
    rw [htext] at h
    cases hunit : compileUnit settings source.stem text with
    | mk result listing =>
      cases result with
      | error error => simp [hunit] at h
      | ok code =>
        simp only [hunit] at h ⊢
        cases h
        unfold deliver codePath listingPath
        by_cases hempty : (outputDirectory settings root source).text = ""
        · have hmake : disk.makeDirectories (outputDirectory settings root source) tree =
              .ok () tree := by
            rw [Path.eq_of_text_eq_empty hempty]
            rfl
          rw [bind_files_of_ok hmake]
          exact congrFun (if_pos hempty) tree
        · exact congrFun (if_neg hempty) tree
  · rw [herror] at h
    cases h

theorem deliver_none {made written : FileTree}
    (hmake : disk.makeDirectories (outputDirectory settings root source) tree = .ok () made)
    (hcode : disk.writeBytes (codePath settings root source) code.toUTF8 made = .ok () written) :
    deliver disk settings root source code none tree =
      .ok (codePath settings root source) written := by
  unfold deliver
  rw [bind_files_of_ok hmake, bind_files_of_ok hcode]
  rfl

theorem deliver_some {made written : FileTree} (bytes : ByteArray)
    (hmake : disk.makeDirectories (outputDirectory settings root source) tree = .ok () made)
    (hcode : disk.writeBytes (codePath settings root source) code.toUTF8 made = .ok () written) :
    deliver disk settings root source code (some bytes) tree =
      (do files (disk.writeBytes (listingPath settings root source) bytes)
          return codePath settings root source : Build Path) written := by
  unfold deliver
  rw [bind_files_of_ok hmake, bind_files_of_ok hcode]

section Delivery

variable (disk : Disk) (settings : Settings) (root source : Path) (code : String)
  (listing : Option ByteArray) (tree : FileTree)

/-- How the second half can end: at the step that fails, with what was done before it, or with the
path of the code. -/
inductive Delivery : EStateM.Result BuildError FileTree Path → Prop
  | noDirectory {error made}
      (hmake : disk.makeDirectories (outputDirectory settings root source) tree =
        .error error made) :
      Delivery (.error (.file error) made)
  | noCode {error made left}
      (hmake : disk.makeDirectories (outputDirectory settings root source) tree = .ok () made)
      (hcode : disk.writeBytes (codePath settings root source) code.toUTF8 made =
        .error error left) :
      Delivery (.error (.file error) left)
  | noListing {error made written left bytes}
      (hmake : disk.makeDirectories (outputDirectory settings root source) tree = .ok () made)
      (hcode : disk.writeBytes (codePath settings root source) code.toUTF8 made = .ok () written)
      (hasked : listing = some bytes)
      (hlisting : disk.writeBytes (listingPath settings root source) bytes written =
        .error error left) :
      Delivery (.error (.file error) left)
  | finished {made written last}
      (hmake : disk.makeDirectories (outputDirectory settings root source) tree = .ok () made)
      (hcode : disk.writeBytes (codePath settings root source) code.toUTF8 made = .ok () written)
      (hnone : listing = none → last = written)
      (hsome : ∀ bytes, listing = some bytes →
        disk.writeBytes (listingPath settings root source) bytes written = .ok () last) :
      Delivery (.ok (codePath settings root source) last)

theorem delivery_deliver : Delivery disk settings root source code listing tree
    (deliver disk settings root source code listing tree) := by
  cases hmake : disk.makeDirectories (outputDirectory settings root source) tree with
  | error error made =>
    rw [deliver, bind_files_of_error hmake]
    exact .noDirectory hmake
  | ok u made =>
    cases hcode : disk.writeBytes (codePath settings root source) code.toUTF8 made with
    | error error left =>
      rw [deliver, bind_files_of_ok hmake, bind_files_of_error hcode]
      exact .noCode hmake hcode
    | ok u written =>
      cases listing with
      | none =>
        rw [deliver_none hmake hcode]
        exact .finished hmake hcode (fun _ => rfl) nofun
      | some bytes =>
        rw [deliver_some bytes hmake hcode]
        cases hlisting : disk.writeBytes (listingPath settings root source) bytes written with
        | error error left =>
          rw [bind_files_of_error hlisting]
          exact .noListing hmake hcode rfl hlisting
        | ok u listed =>
          rw [bind_files_of_ok hlisting]
          refine .finished hmake hcode nofun fun other hother => ?_
          cases hother
          exact hlisting

end Delivery

/-! ## What a source gives -/

/-- The token listing of a text. -/
def tokenListing (text : String) : ByteArray :=
  (TokenTrace.document ((sourceTokens text).map fun t => (t.kind.tag, t.kind.lexeme))).toUTF8

/-- A compilation that succeeds consumes the tokens of the text. -/
theorem tokens_run {options : Options} {text : String}
    (h : (run options text).problem = none) : (run options text).tokens = sourceTokens text := by
  obtain ⟨line, hscan⟩ := scan_of_run h
  have hmore : ∀ t ∈ (run options text).tokens, t.isEof = false := fun t ht =>
    isEof_of_mem_leading ((isPrefix_sourceTokens options text).subset ht)
  have hend : leading [.ok ⟨.eof, line⟩] = [] := rfl
  rw [sourceTokens, hscan, leading_map_append hmore, hend, List.append_nil]

/-- All tokens of a text have an element. -/
theorem shown_sourceTokens (text : String) :
    TokenTrace.shown ((sourceTokens text).map fun t => (t.kind.tag, t.kind.lexeme)) =
      (sourceTokens text).map fun t => (t.kind.tag, t.kind.lexeme) := by
  refine List.filter_eq_self.mpr fun t ht => ?_
  obtain ⟨token, htoken, rfl⟩ := List.mem_map.mp ht
  have heof : token.isEof = false := isEof_of_mem_leading htoken
  rw [decide_eq_true_eq]
  intro htag
  cases hkind : token.kind with
  | eof => exact absurd (TokenKind.isEof_iff.mpr hkind) (Bool.eq_false_iff.mp heof)
  | keyword | symbol | integer | string | identifier => simp [hkind, TokenKind.tag] at htag

/-- The listing hears all tokens and the end of the unit. -/
theorem hearAll_tokenTrace {options : Options} {text : String}
    (h : (run options text).problem = none) :
    TokenTrace.sink.hearAll (run options text).heard { outlet := Outlet.empty none } =
      .ok () ⟨⟨none, tokenListing text⟩, true⟩ := by
  have hlist := TokenTrace.listAll_fresh
    ((sourceTokens text).map fun t => (t.kind.tag, t.kind.lexeme))
  rw [← tell_finish_eq_listAll, shown_sourceTokens] at hlist
  obtain ⟨between, htell, hfinish⟩ := Files.exists_of_bind_ok hlist
  rw [Run.heard, if_pos h, tokens_run h, Sink.hearAll_append_of_ok htell]
  exact Sink.hearAll_cons_of_ok hfinish

theorem compileUnit_of_ok {unit text : String}
    (h : compile settings.options unit text = .ok code) : compileUnit settings unit text =
      (.ok code, if settings.traceTokens then some (tokenListing text) else none) := by
  unfold compileUnit
  by_cases htrace : settings.traceTokens = true
  · rw [if_pos htrace, if_pos htrace,
      compileWith_of_heard_ok (hearAll_tokenTrace (compile_ok_iff.mp h).1), h]
  · rw [if_neg htrace, if_neg htrace, h]

/-- The listing does not change whether a unit compiles. -/
theorem compileUnit_of_error {unit text : String} {error : Error}
    (h : compile settings.options unit text = .error error) :
    (compileUnit settings unit text).1 = .error error := by
  unfold compileUnit
  split
  · obtain ⟨between, htell, -⟩ := Files.exists_of_bind_ok
      ((congrFun (tell_finish_eq_listAll (run settings.options text).tokens) _).trans
        (TokenTrace.listAll_fresh _))
    obtain ⟨problem, hproblem, -⟩ := compile_error_iff.mp h
    have hheard : TokenTrace.sink.hearAll (run settings.options text).heard
        { outlet := Outlet.empty none } = .ok () between := by
      rw [Run.heard, if_neg (by simp [hproblem]), List.append_nil]
      exact htell
    simp only [compileWith_of_heard_ok hheard, h]
  · exact h

/-- A source gives something exactly when it is a text that compiles: the code, and the listing of
its tokens if that is asked for. -/
theorem product_eq_ok_iff : product disk settings source tree = .ok (code, listing) ↔
    ∃ text, disk.readText source tree = .ok text tree ∧
      compile settings.options source.stem text = .ok code ∧
      listing = if settings.traceTokens then some (tokenListing text) else none := by
  unfold product
  obtain ⟨text, htext⟩ | ⟨error, herror⟩ := Disk.readText_cases disk source tree
  · cases hcompile : compile settings.options source.stem text with
    | error error =>
      have hunit := compileUnit_of_error hcompile
      cases hresult : compileUnit settings source.stem text with
      | mk result bytes =>
        obtain rfl : result = .error error := by simpa [hresult] using hunit
        simp [htext, hresult, hcompile]
    | ok code' =>
      simp only [htext, compileUnit_of_ok hcompile]
      constructor
      · intro h
        cases h
        exact ⟨text, rfl, hcompile, rfl⟩
      · rintro ⟨text', htext', hcompile', rfl⟩
        cases htext'
        rw [hcompile] at hcompile'
        cases hcompile'
        rfl
  · simp [herror]

theorem traceTokens_of_product {bytes : ByteArray}
    (h : product disk settings source tree = .ok (code, some bytes)) :
    settings.traceTokens = true := by
  obtain ⟨text, -, -, hlisting⟩ := product_eq_ok_iff.mp h
  by_contra htrace
  simp [htrace] at hlisting

/-! ## Programs -/

theorem program_of_ne_nil (h : tree.discover path ≠ []) : program disk settings path tree =
    attemptAll disk settings (layoutRoot path tree) (tree.discover path) tree := by
  unfold program
  split
  · exact absurd ‹_› h
  · rfl

end Build

end Jack
