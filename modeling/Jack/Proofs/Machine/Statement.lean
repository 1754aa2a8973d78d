import Jack.Proofs.Machine.Expression
import Jack.Proofs.Machine.Label

/-!
# The code of statements does what they mean

The program is any code in which the statements' own code stands and that defines no label twice.

1. `Leaves` is for statements without a jump what `Pushes` is for expressions.
2. `Arrives` says that a program gets where an outcome calls for: to the end of the statements, with
   the stack as it was, or to a `return` with the value on top.
3. `Simulates` says this of the code of statements, wherever it stands in the program. Each rule of
   the semantics has its lemma; the jumps lead to the right places because labels are unique.
4. `Ends.simulates` puts them together, by induction on how the statements end.
-/

namespace Jack

variable {Word : Type} [DecidableEq Word] {M : Machine Word} {env : Environment}

/-! ## Statements without a jump -/

/-- Run in the given frame and store, the code leaves this frame, this store and the stack as it
was. -/
def Leaves (M : Machine Word) (code : List Instruction) (f : Frame Word) (st : Store Word)
    (f' : Frame Word) (st' : Store Word) : Prop :=
  ∀ s : Machine.State Word, s.frame = f → s.store = st →
    ∃ target temp, M.exec code s = some ⟨s.stack, f', st', target, temp⟩

section Leaves

variable {code code' : List Instruction} {f f' : Frame Word} {st st' st'' : Store Word}
  {vs : List Word} {v : Word}

/-- Code that uses up all the values that were pushed. -/
theorem Pushes.leaves (h : Pushes M code f st vs st')
    (hrest : ∀ stack target temp, ∃ target' temp',
      M.exec code' ⟨vs.reverse ++ stack, f, st', target, temp⟩ =
        some ⟨stack, f', st'', target', temp'⟩) : Leaves M (code ++ code') f st f' st'' := by
  intro s hf hst
  obtain ⟨target, temp, hcode⟩ := h s hf hst
  obtain ⟨target', temp', hcode'⟩ := hrest s.stack target temp
  refine ⟨target', temp', ?_⟩
  rw [Machine.exec_append, hcode]
  exact hcode'

/-- A value is given to a name. -/
theorem Pushes.assign {name : String} (h : Pushes M code f st [v] st') (hname : env.Declares name) :
    Leaves M (code ++ env.write name) f st
      (env.assign M name v f st').1 (env.assign M name v f st').2 := by
  obtain ⟨x, hx⟩ := Option.isSome_iff_exists.mp hname
  unfold Environment.write Environment.assign
  rw [hx]
  refine h.leaves fun stack target temp => ⟨target, temp, ?_⟩
  obtain ⟨name, type, kind, index⟩ := x
  cases kind <;> rfl

/-- A value is stored at an address that was pushed before it. In between, any code may have used
`pointer 1`, which is set only now. -/
theorem Pushes.store {address : Word} (h : Pushes M code f st [address, v] st') :
    Leaves M (code ++ [.pop .temp 0, .pop .pointer 1, .push .temp 0, .pop .that 0]) f st
      f (st'.poke address v) := by
  refine h.leaves fun stack target temp => ⟨address, Function.update temp 0 v, ?_⟩
  show some _ = some _
  rw [M.cell_zero]
  rfl

/-- A value is dropped. -/
theorem Pushes.drop (h : Pushes M code f st [v] st') :
    Leaves M (code ++ [.pop .temp 0]) f st f st' :=
  h.leaves fun _ target temp => ⟨target, Function.update temp 0 v, rfl⟩

end Leaves

/-! ## Arriving -/

/-- The program gets where the outcome calls for: to the stop with the stack as it was, or to a
`return` with the value on top. -/
def Arrives (M : Machine Word) (program : List Instruction) (place : Nat) (s : Machine.State Word)
    (stop : Nat) : Outcome Word → Prop
  | .normal f st => ∃ target temp,
    M.Reaches program (place, s) (stop, ⟨s.stack, f, st, target, temp⟩)
  | .returned v f st => ∃ pc target temp, program[pc]? = some .return_ ∧
    M.Reaches program (place, s) (pc, ⟨v :: s.stack, f, st, target, temp⟩)

section Arrives

variable {program : List Instruction} {place mid stop : Nat} {s : Machine.State Word}
  {f f' : Frame Word} {st st' : Store Word} {o : Outcome Word}

theorem Arrives.bind (h : Arrives M program place s mid (.normal f st))
    (hnext : ∀ s' : Machine.State Word, s'.stack = s.stack → s'.frame = f → s'.store = st →
      Arrives M program mid s' stop o) : Arrives M program place s stop o := by
  obtain ⟨target, temp, hreach⟩ := h
  have hrest := hnext ⟨s.stack, f, st, target, temp⟩ rfl rfl rfl
  cases o with
  | normal f' st' =>
    obtain ⟨target', temp', hrest⟩ := hrest
    exact ⟨target', temp', hreach.trans hrest⟩
  | returned v f' st' =>
    obtain ⟨pc, target', temp', hreturn, hrest⟩ := hrest
    exact ⟨pc, target', temp', hreturn, hreach.trans hrest⟩

/-- A jump or a label after statements matters only if they end normally. -/
theorem Arrives.after (h : Arrives M program place s mid o)
    (hnext : ∀ s' : Machine.State Word,
      Arrives M program mid s' stop (.normal s'.frame s'.store)) :
    Arrives M program place s stop o := by
  cases o with
  | normal f st =>
    refine h.bind fun s' _ hf hst => ?_
    rw [← hf, ← hst]
    exact hnext s'
  | returned v f st => exact h

theorem arrives_of_step (h : M.step program (place, s) = some (stop, s)) :
    Arrives M program place s stop (.normal s.frame s.store) :=
  ⟨s.target, s.temp, Relation.ReflTransGen.single h⟩

theorem arrives_label {name : String} (h : program[place]? = some (.label name))
    (s : Machine.State Word) : Arrives M program place s (place + 1) (.normal s.frame s.store) :=
  arrives_of_step (M.step_of_perform h rfl)

theorem arrives_goto {name : String} (h : program[place]? = some (.goto name))
    (htarget : program.idxOf? (.label name) = some stop) (s : Machine.State Word) :
    Arrives M program place s stop (.normal s.frame s.store) :=
  arrives_of_step (M.step_goto s h htarget)

theorem Leaves.arrives {code : List Instruction} (h : Leaves M code f st f' st')
    (hcode : Stands program place code) (hf : s.frame = f) (hst : s.store = st) :
    Arrives M program place s (place + code.length) (.normal f' st') := by
  obtain ⟨target, temp, hexec⟩ := h s hf hst
  exact ⟨target, temp, M.reaches_of_exec hcode hexec⟩

/-! ## Conditions -/

variable {e : Expression} {name : String} {c : Word}

/-- The code of a condition, with a jump that is taken if it does not hold. -/
def Expression.test (env : Environment) (e : Expression) (name : String) : List Instruction :=
  e.code env ++ [.operate .not, .ifGoto name]

/-- The code of a condition, up to the jump: the opposite of the condition is on top. -/
theorem Expression.reaches_test (hvalid : e.Valid env)
    (hcode : Stands program place (e.test env name)) (heval : e.eval M env f st = (c, st'))
    (hf : s.frame = f) (hst : s.store = st) :
    ∃ target temp, M.Reaches program (place, s)
      (place + (e.code env).length + 1, ⟨M.unary .not c :: s.stack, f, st', target, temp⟩) := by
  have hpushes := (Expression.pushes M env f e st hvalid).unary .not
  rw [heval] at hpushes
  obtain ⟨target, temp, hexec⟩ := hpushes s hf hst
  have hplace : Stands program place (e.code env ++ [.operate .not] ++ [.ifGoto name]) := by
    rw [List.append_assoc]
    exact hcode
  have hreach := M.reaches_of_exec hplace.left hexec
  rw [List.length_append] at hreach
  exact ⟨target, temp, hreach⟩

/-- A condition that holds is passed. -/
theorem Expression.arrives_passed (hvalid : e.Valid env)
    (hcode : Stands program place (e.test env name)) (heval : e.eval M env f st = (c, st'))
    (hc : M.Holds c) (hf : s.frame = f) (hst : s.store = st) :
    Arrives M program place s (place + (e.test env name).length) (.normal f st') := by
  obtain ⟨target, temp, hreach⟩ := e.reaches_test hvalid hcode heval hf hst
  rw [show M.unary .not c = M.number 0 from hc] at hreach
  have hlength : place + (e.test env name).length = place + (e.code env).length + 1 + 1 := by
    simp [Expression.test, Nat.add_assoc]
  rw [hlength]
  exact ⟨target, temp, hreach.tail (M.step_ifGoto_zero hcode.right.tail.head rfl)⟩

/-- A condition that does not hold leads to the label. -/
theorem Expression.arrives_jumped (hvalid : e.Valid env)
    (hcode : Stands program place (e.test env name)) (heval : e.eval M env f st = (c, st'))
    (hc : ¬ M.Holds c) (htarget : program.idxOf? (.label name) = some stop) (hf : s.frame = f)
    (hst : s.store = st) : Arrives M program place s stop (.normal f st') := by
  obtain ⟨target, temp, hreach⟩ := e.reaches_test hvalid hcode heval hf hst
  exact ⟨target, temp, hreach.tail (M.step_ifGoto_ne hcode.right.tail.head rfl hc htarget)⟩

end Arrives

/-! ## Rules -/

/-- Wherever the code of the statements stands in the program, it arrives at the outcome. -/
def Simulates (M : Machine Word) (env : Environment) (program : List Instruction)
    (ts : List Statement) (f : Frame Word) (st : Store Word) (o : Outcome Word) : Prop :=
  ∀ (n : Labels) (place : Nat) (s : Machine.State Word),
    Stands program place (Statement.blockCode env ts n) → s.frame = f → s.store = st →
      Arrives M program place s (place + (Statement.blockCode env ts n).length) o

section Rules

variable {program : List Instruction} {f f' f₁ : Frame Word} {st st' st₁ st₂ : Store Word}
  {o : Outcome Word} {t : Statement} {rest yes no body : List Statement} {e : Expression}
  {name : String} {c v : Word}

theorem simulates_nil : Simulates M env program [] f st (.normal f st) := by
  rintro n place s - rfl rfl
  exact ⟨s.target, s.temp, Relation.ReflTransGen.refl⟩

/-- One statement, whose code needs no other. -/
theorem simulates_singleton (h : ∀ (n : Labels) (place : Nat) (s : Machine.State Word),
    Stands program place (t.code env n) → s.frame = f → s.store = st →
      Arrives M program place s (place + (t.code env n).length) o) :
    Simulates M env program [t] f st o := by
  intro n place s hcode hf hst
  rw [Statement.blockCode, Statement.blockCode, List.append_nil] at hcode ⊢
  exact h n place s hcode hf hst

theorem Simulates.singleton (h : Simulates M env program [t] f st o) {n : Labels} {place : Nat}
    {s : Machine.State Word} (hcode : Stands program place (t.code env n)) (hf : s.frame = f)
    (hst : s.store = st) : Arrives M program place s (place + (t.code env n).length) o := by
  have harrives := h n place s
  rw [Statement.blockCode, Statement.blockCode, List.append_nil] at harrives
  exact harrives hcode hf hst

theorem Simulates.next (h : Simulates M env program [t] f st (.normal f' st'))
    (h' : Simulates M env program rest f' st' o) : Simulates M env program (t :: rest) f st o := by
  intro n place s hcode hf hst
  rw [Statement.blockCode] at hcode ⊢
  refine (h.singleton hcode.left hf hst).bind fun s' _ hf' hst' => ?_
  rw [List.length_append, ← Nat.add_assoc]
  exact h' (t.after n) _ s' hcode.right hf' hst'

theorem Simulates.stop (h : Simulates M env program [t] f st (.returned v f' st')) :
    Simulates M env program (t :: rest) f st (.returned v f' st') := by
  intro n place s hcode hf hst
  rw [Statement.blockCode] at hcode
  exact h.singleton hcode.left hf hst

theorem simulates_let (hvalid : (Statement.let_ name e).Valid env)
    (heval : e.eval M env f st = (v, st')) :
    Simulates M env program [.let_ name e] f st
      (.normal (env.assign M name v f st').1 (env.assign M name v f st').2) := by
  refine simulates_singleton fun n place s hcode hf hst => ?_
  have hpushes := Expression.pushes M env f e st hvalid.2
  rw [heval] at hpushes
  exact (hpushes.assign hvalid.1).arrives hcode hf hst

theorem simulates_letElement {index : Expression} {i : Word}
    (hvalid : (Statement.letElement name index e).Valid env)
    (hindex : index.eval M env f st = (i, st₁)) (heval : e.eval M env f st₁ = (v, st₂)) :
    Simulates M env program [.letElement name index e] f st
      (.normal f (st₂.poke (M.binary .add (env.value M f st name) i) v)) := by
  refine simulates_singleton fun n place s hcode hf hst => ?_
  have harray := pushes_name M f st hvalid.1
  have hpushes := Expression.pushes M env f index st hvalid.2.1
  have hpushes' := Expression.pushes M env f e st₁ hvalid.2.2
  rw [hindex] at hpushes
  rw [heval] at hpushes'
  have haddress := (harray.append hpushes).binary .add
  exact (haddress.append hpushes').store.arrives hcode hf hst

theorem simulates_do {call : Call} (hvalid : (Statement.do_ call).Valid env)
    (heval : call.eval M env f st = (v, st')) :
    Simulates M env program [.do_ call] f st (.normal f st') := by
  refine simulates_singleton fun n place s hcode hf hst => ?_
  have hpushes := Call.pushes M env f call st hvalid
  rw [heval] at hpushes
  exact hpushes.drop.arrives hcode hf hst

/-- A value that is on top before a `return`. -/
theorem Pushes.returned {code : List Instruction} {place stop : Nat} {s : Machine.State Word}
    (h : Pushes M code f st [v] st') (hcode : Stands program place (code ++ [.return_]))
    (hf : s.frame = f) (hst : s.store = st) :
    Arrives M program place s stop (.returned v f st') := by
  obtain ⟨target, temp, hexec⟩ := h s hf hst
  exact ⟨_, target, temp, hcode.right.head, M.reaches_of_exec hcode.left hexec⟩

theorem simulates_return_none :
    Simulates M env program [.return_ none] f st (.returned (M.number 0) f st) :=
  simulates_singleton fun _ _ _ hcode hf hst => (pushes_number M f st 0).returned hcode hf hst

theorem simulates_return_some (hvalid : (Statement.return_ (some e)).Valid env)
    (heval : e.eval M env f st = (v, st')) :
    Simulates M env program [.return_ (some e)] f st (.returned v f st') := by
  refine simulates_singleton fun n place s hcode hf hst => ?_
  have hpushes := Expression.pushes M env f e st hvalid
  rw [heval] at hpushes
  exact hpushes.returned hcode hf hst

/-! ### Branches -/

theorem Statement.code_if (n : Labels) : (Statement.if_ e yes).code env n =
    e.test env (env.label "IF_FALSE" n.branches) ++
      (Statement.blockCode env yes { n with branches := n.branches + 1 } ++
        [.label (env.label "IF_FALSE" n.branches)]) := by
  rw [Statement.code, List.append_assoc]
  rfl

theorem Simulates.if_true (hvalid : (Statement.if_ e yes).Valid env)
    (heval : e.eval M env f st = (c, st')) (hc : M.Holds c)
    (h : Simulates M env program yes f st' o) : Simulates M env program [.if_ e yes] f st o := by
  refine simulates_singleton fun n place s hcode hf hst => ?_
  rw [Statement.code_if] at hcode ⊢
  refine (e.arrives_passed hvalid.1 hcode.left heval hc hf hst).bind fun s' _ hf' hst' => ?_
  have hyes := h _ _ s' hcode.right.left hf' hst'
  simp only [List.length_append, ← Nat.add_assoc]
  exact hyes.after (arrives_label hcode.right.right.head)

theorem simulates_if_false (hprogram : (labelsIn program).Nodup)
    (hvalid : (Statement.if_ e yes).Valid env) (heval : e.eval M env f st = (c, st'))
    (hc : ¬ M.Holds c) : Simulates M env program [.if_ e yes] f st (.normal f st') := by
  refine simulates_singleton fun n place s hcode hf hst => ?_
  rw [Statement.code_if] at hcode ⊢
  have htarget := idxOf?_label hprogram hcode.right.right
  simp only [List.length_append, ← Nat.add_assoc]
  exact (e.arrives_jumped hvalid.1 hcode.left heval hc htarget hf hst).after
    (arrives_label hcode.right.right.head)

theorem Statement.code_ifElse (n : Labels) : (Statement.ifElse e yes no).code env n =
    e.test env (env.label "IF_FALSE" n.branches) ++
      (Statement.blockCode env yes { n with branches := n.branches + 1 } ++
        .goto (env.label "IF_END" n.branches) :: .label (env.label "IF_FALSE" n.branches) ::
          (Statement.blockCode env no
              (Statement.blockAfter yes { n with branches := n.branches + 1 }) ++
            [.label (env.label "IF_END" n.branches)])) := by
  simp [Statement.code, Expression.test]

theorem Simulates.ifElse_true (hprogram : (labelsIn program).Nodup)
    (hvalid : (Statement.ifElse e yes no).Valid env) (heval : e.eval M env f st = (c, st'))
    (hc : M.Holds c) (h : Simulates M env program yes f st' o) :
    Simulates M env program [.ifElse e yes no] f st o := by
  refine simulates_singleton fun n place s hcode hf hst => ?_
  rw [Statement.code_ifElse] at hcode ⊢
  refine (e.arrives_passed hvalid.1 hcode.left heval hc hf hst).bind fun s' _ hf' hst' => ?_
  have hyes := h _ _ s' hcode.right.left hf' hst'
  have hgoto := hcode.right.right
  have hend := hgoto.tail.tail.right
  have hdone := (hyes.after (arrives_goto hgoto.head (idxOf?_label hprogram hend))).after
    (arrives_label hend.head)
  simp only [List.length_append, List.length_cons, List.length_nil] at hdone ⊢
  convert hdone using 1
  omega

theorem Simulates.ifElse_false (hprogram : (labelsIn program).Nodup)
    (hvalid : (Statement.ifElse e yes no).Valid env) (heval : e.eval M env f st = (c, st'))
    (hc : ¬ M.Holds c) (h : Simulates M env program no f st' o) :
    Simulates M env program [.ifElse e yes no] f st o := by
  refine simulates_singleton fun n place s hcode hf hst => ?_
  rw [Statement.code_ifElse] at hcode ⊢
  have hlabel := hcode.right.right.tail
  have htarget := idxOf?_label hprogram hlabel
  have hjumped := (e.arrives_jumped hvalid.1 hcode.left heval hc htarget hf hst).after
    (arrives_label hlabel.head)
  refine hjumped.bind fun s' _ hf' hst' => ?_
  have hno := h _ _ s' hlabel.tail.left hf' hst'
  have hdone := hno.after (arrives_label hlabel.tail.right.head)
  simp only [List.length_append, List.length_cons, List.length_nil] at hdone ⊢
  convert hdone using 1
  omega

/-! ### Loops -/

theorem Statement.code_while (n : Labels) : (Statement.while_ e body).code env n =
    .label (env.label "WHILE_EXP" n.loops) :: (e.test env (env.label "WHILE_END" n.loops) ++
      (Statement.blockCode env body { n with loops := n.loops + 1 } ++
        [.goto (env.label "WHILE_EXP" n.loops), .label (env.label "WHILE_END" n.loops)])) := by
  simp [Statement.code, Expression.test]

theorem simulates_while_false (hprogram : (labelsIn program).Nodup)
    (hvalid : (Statement.while_ e body).Valid env) (heval : e.eval M env f st = (c, st'))
    (hc : ¬ M.Holds c) : Simulates M env program [.while_ e body] f st (.normal f st') := by
  refine simulates_singleton fun n place s hcode hf hst => ?_
  rw [Statement.code_while] at hcode ⊢
  have htest := hcode.tail
  have hend := htest.right.right.tail
  refine (arrives_label hcode.head s).bind fun s' _ hf' hst' => ?_
  have hdone := (e.arrives_jumped hvalid.1 htest.left heval hc (idxOf?_label hprogram hend)
    (hf'.trans hf) (hst'.trans hst)).after (arrives_label hend.head)
  simp only [List.length_append, List.length_cons, List.length_nil] at hdone ⊢
  convert hdone using 1
  omega

/-- A round of a loop: the condition is passed, and the body arrives before the jump back. -/
theorem Simulates.round {n : Labels} {place : Nat} {s : Machine.State Word}
    (hvalid : (Statement.while_ e body).Valid env) (heval : e.eval M env f st = (c, st'))
    (hc : M.Holds c) (h : Simulates M env program body f st' o)
    (hcode : Stands program place ((Statement.while_ e body).code env n)) (hf : s.frame = f)
    (hst : s.store = st) :
    Arrives M program place s
      (place + 1 + (e.test env (env.label "WHILE_END" n.loops)).length +
        (Statement.blockCode env body { n with loops := n.loops + 1 }).length) o := by
  rw [Statement.code_while] at hcode
  have htest := hcode.tail
  refine (arrives_label hcode.head s).bind fun s' _ hf' hst' => ?_
  refine (e.arrives_passed hvalid.1 htest.left heval hc (hf'.trans hf) (hst'.trans hst)).bind
    fun s'' _ hf'' hst'' => ?_
  exact h _ _ s'' htest.right.left hf'' hst''

theorem Simulates.while_true (hprogram : (labelsIn program).Nodup)
    (hvalid : (Statement.while_ e body).Valid env) (heval : e.eval M env f st = (c, st'))
    (hc : M.Holds c) (h : Simulates M env program body f st' (.normal f₁ st₁))
    (h' : Simulates M env program [.while_ e body] f₁ st₁ o) :
    Simulates M env program [.while_ e body] f st o := by
  refine simulates_singleton fun n place s hcode hf hst => ?_
  have hround := h.round hvalid heval hc hcode hf hst
  have hagain := hcode
  rw [Statement.code_while] at hcode
  have hstart := idxOf?_label hprogram hcode
  have hback := hround.after (arrives_goto hcode.tail.right.right.head hstart)
  exact hback.bind fun s' _ hf' hst' => h'.singleton hagain hf' hst'

theorem Simulates.while_return (hvalid : (Statement.while_ e body).Valid env)
    (heval : e.eval M env f st = (c, st')) (hc : M.Holds c)
    (h : Simulates M env program body f st' (.returned v f₁ st₁)) :
    Simulates M env program [.while_ e body] f st (.returned v f₁ st₁) := by
  refine simulates_singleton fun n place s hcode hf hst => ?_
  exact h.round hvalid heval hc hcode hf hst

end Rules

/-- **Simulation.** However valid statements end, their code arrives there, wherever it stands in a
program that defines no label twice. -/
theorem Ends.simulates {program : List Instruction} {ts : List Statement} {f : Frame Word}
    {st : Store Word} {o : Outcome Word} (hprogram : (labelsIn program).Nodup)
    (h : Ends M env ts f st o) (hvalid : Statement.BlockValid env ts) :
    Simulates M env program ts f st o := by
  induction h with
  | nil => exact simulates_nil
  | next _ _ ih ih' => exact (ih ⟨hvalid.1, trivial⟩).next (ih' hvalid.2)
  | stop _ ih => exact (ih ⟨hvalid.1, trivial⟩).stop
  | let_ heval => exact simulates_let hvalid.1 heval
  | letElement hindex heval => exact simulates_letElement hvalid.1 hindex heval
  | ifTrue heval hc _ ih => exact (ih hvalid.1.2).if_true hvalid.1 heval hc
  | ifFalse heval hc => exact simulates_if_false hprogram hvalid.1 heval hc
  | ifElseTrue heval hc _ ih => exact (ih hvalid.1.2.1).ifElse_true hprogram hvalid.1 heval hc
  | ifElseFalse heval hc _ ih => exact (ih hvalid.1.2.2).ifElse_false hprogram hvalid.1 heval hc
  | whileFalse heval hc => exact simulates_while_false hprogram hvalid.1 heval hc
  | whileTrue heval hc _ _ ih ih' =>
    exact (ih hvalid.1.2).while_true hprogram hvalid.1 heval hc (ih' hvalid)
  | whileReturn heval hc _ ih => exact (ih hvalid.1.2).while_return hvalid.1 heval hc
  | do_ heval => exact simulates_do hvalid.1 heval
  | returnNone => exact simulates_return_none
  | returnSome heval => exact simulates_return_some hvalid.1 heval

end Jack
