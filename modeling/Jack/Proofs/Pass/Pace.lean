import Jack.Proofs.Pass.Trace

/-!
# The pace of a pass

A pass gets on: before a function is entered again beneath itself, and before the next round of a
loop, a token is used up. There are a few functions that enter another one at once. They have a
`Site.rank`, which goes down in such a step. So a token is used up after at most three of them, the
bound that is counted down never gets to its end, and the number of entries is at most five for each
token (`Pass.Paced`).
-/

namespace Jack

namespace Pass

variable {α β : Type} {s s' s'' : State}

/-- The number of functions that may be entered one beneath the other, from this one on, before a
token is used up. -/
def Site.rank : Site → Nat
  | .arguments | .statements => 3
  | .expression | .statement => 2
  | _ => 1

/-- A function is entered beneath another one: more tokens have been used up, or its rank is
lower. -/
def CallFrame.Beneath (inner outer : CallFrame) : Prop :=
  outer.used < inner.used ∨ inner.used = outer.used ∧ inner.site.rank < outer.site.rank

/-- A function that is entered beneath itself has used up a token in between. -/
theorem CallFrame.Beneath.used_lt {inner outer : CallFrame} (h : inner.Beneath outer)
    (hsite : inner.site = outer.site) : outer.used < inner.used := by
  obtain h | ⟨-, h⟩ := h
  · exact h
  · rw [hsite] at h
    exact absurd h (Nat.lt_irrefl _)

/-- More than the given number of tokens have been used up, or as many and the rank is not higher
than the one given. -/
def Room (base rank used n : Nat) : Prop := base < used ∨ used = base ∧ n ≤ rank

/-- The number of functions entered for each token. -/
def entriesPerToken : Nat := 5

/-- The stack is in order, and no function in it has been given the bound zero. -/
structure Orderly (base rank : Nat) (stack : List CallFrame) : Prop where
  beneath : stack.Pairwise CallFrame.Beneath
  room : ∀ f ∈ stack, Room base rank f.used f.site.rank
  bound : ∀ f ∈ stack, 0 < f.bound

/-- A stack is in order beneath a function of a higher rank. -/
theorem Orderly.append {base rank r : Nat} {stack : List CallFrame} {frame : CallFrame}
    (h : Orderly frame.used r stack) (hr : r < frame.site.rank)
    (hroom : Room base rank frame.used frame.site.rank) (hbound : 0 < frame.bound) :
    Orderly base rank (stack ++ [frame]) := by
  refine ⟨List.pairwise_append.mpr ⟨h.beneath, List.pairwise_singleton _ _, ?_⟩, ?_, ?_⟩
  · intro f hf outer houter
    obtain rfl := List.mem_singleton.mp houter
    exact (h.room f hf).imp id fun hrank => ⟨hrank.1, hrank.2.trans_lt hr⟩
  · rw [List.forall_mem_append, List.forall_mem_singleton]
    refine ⟨fun f hf => ?_, hroom⟩
    have := h.room f hf
    unfold Room at *
    omega
  · rw [List.forall_mem_append, List.forall_mem_singleton]
    exact ⟨h.bound, hbound⟩

/-- From the state the first pass does on a tracer what the second does on a journal, and makes the
given entries, which are in order. Entries have to be paid for: some are paid for in advance, more
are with each token that is used up, and when the pass succeeds some are left over. -/
structure Entering (base rank cost gain : Nat) (t : PassOn Tracer Problem α) (q : Pass α)
    (s : State) (new : List (List CallFrame)) : Prop where
  traced : ∀ stack entries, t (s.traced stack entries) =
    tracedResult (q s) stack (entries ++ new.map (· ++ stack))
  orderly : ∀ stack ∈ new, Orderly base rank stack
  ok : ∀ {x s'}, q s = .ok x s' → Moves s s' ∧
    new.length + gain ≤ cost + entriesPerToken * (s'.used - s.used)
  error : ∀ {e s'}, q s = .error e s' → new.length ≤ cost + entriesPerToken * s.left

/-- The pass makes entries that are in order and paid for. -/
def Paced (base rank cost gain : Nat) (t : PassOn Tracer Problem α) (q : Pass α) (s : State) :
    Prop := ∃ new, Entering base rank cost gain t q s new

variable {base rank n n' m g : Nat} {t : PassOn Tracer Problem α} {f : α → PassOn Tracer Problem β}
  {q : Pass α} {h : α → Pass β}

theorem Paced.mono (hp : Paced base rank n g t q s) (hn : n ≤ n') (hg : m + n ≤ n' + g) :
    Paced base rank n' m t q s := by
  obtain ⟨new, htraced, horderly, hok, herror⟩ := hp
  refine ⟨new, htraced, horderly, fun hq => ?_, fun hq => ?_⟩
  · obtain ⟨hmoves, hle⟩ := hok hq
    exact ⟨hmoves, by omega⟩
  · have := herror hq
    omega

/-- What is left over in the end has been paid for by a token. -/
theorem Paced.used_lt (hp : Paced base rank n g t q s) (hn : n < g) {x : α}
    (hq : q s = .ok x s') : s.used < s'.used := by
  obtain ⟨new, hp⟩ := hp
  obtain ⟨-, hle⟩ := hp.ok hq
  unfold entriesPerToken at hle
  omega

/-- A token that has been used up pays for what follows. -/
theorem Paced.of_used {s₀ : State} (hp : Paced base rank (n + entriesPerToken) g t q s)
    (hlt : s₀.used < s.used) :
    Paced base rank (n + entriesPerToken * (s.used - s₀.used)) g t q s := by
  have hle : entriesPerToken ≤ entriesPerToken * (s.used - s₀.used) :=
    Nat.le_mul_of_pos_right _ (by omega)
  exact hp.mono (by omega) (by omega)

/-- All entries are paid for by the tokens that are to come. -/
theorem Entering.length_le {new : List (List CallFrame)} (hp : Entering base rank n g t q s new) :
    new.length ≤ n + entriesPerToken * s.left := by
  cases hs : q s with
  | error e s' => exact hp.error hs
  | ok x s' =>
    obtain ⟨⟨htotal, hused⟩, hle⟩ := hp.ok hs
    unfold entriesPerToken at *
    omega

theorem Paced.bind (ht : Paced base rank n m t q s)
    (hf : ∀ {x s'}, q s = .ok x s' → Moves s s' → Paced base rank m g (f x) (h x) s') :
    Paced base rank n g (t >>= f) (q >>= h) s := by
  obtain ⟨new, ht⟩ := ht
  cases hs : q s with
  | error e s' =>
    -- what follows is not reached
    refine ⟨new, fun stack entries => ?_, ht.orderly, fun hok => ?_, fun _ => ht.error hs⟩
    · rw [bind_apply_error hs, bind_apply_error ((ht.traced stack entries).trans (by rw [hs]; rfl))]
      rfl
    · rw [bind_apply_error hs] at hok
      cases hok
  | ok x s' =>
    obtain ⟨hmoves, hle⟩ := ht.ok hs
    obtain ⟨new', hf⟩ := hf hs hmoves
    have hused := hmoves.used
    have htotal := hmoves.total
    refine ⟨new ++ new', fun stack entries => ?_, fun stack hstack => ?_, fun hok => ?_,
      fun herror => ?_⟩
    · rw [bind_apply_ok hs, bind_apply_ok ((ht.traced stack entries).trans (by rw [hs]; rfl)),
        hf.traced, List.map_append, List.append_assoc]
    · exact (List.mem_append.mp hstack).elim (ht.orderly stack) (hf.orderly stack)
    · rw [bind_apply_ok hs] at hok
      obtain ⟨hmoves', hle'⟩ := hf.ok hok
      have := hmoves'.used
      unfold entriesPerToken at *
      rw [List.length_append]
      exact ⟨hmoves.trans hmoves', by omega⟩
    · rw [bind_apply_ok hs] at herror
      have hle' := hf.error herror
      unfold entriesPerToken at *
      rw [List.length_append]
      omega

/-! ## Passes that enter no function -/

section Leaf

variable {p : Pass α}

theorem Leaf.traced_nil (ht : Leaf t p) (stack : List CallFrame) (entries : List (List CallFrame)) :
    t (s.traced stack entries) =
      tracedResult (p s) stack (entries ++ ([] : List (List CallFrame)).map (· ++ stack)) := by
  rw [ht.traced, List.map_nil, List.append_nil]

/-- The tokens that a pass uses up pay for what follows. -/
theorem paced_leaf_of_ok (ht : Leaf t p) {x : α} (hx : p s = .ok x s') :
    Paced base rank n (n + entriesPerToken * (s'.used - s.used)) t p s := by
  refine ⟨[], ht.traced_nil, by simp, fun hok => ⟨ht.moves hok, ?_⟩, fun herror => ?_⟩
  · cases hx.symm.trans hok
    simp
  · cases hx.symm.trans herror

theorem paced_leaf_of_error (ht : Leaf t p) {e : Problem} (he : p s = .error e s') :
    Paced base rank n m t p s := by
  refine ⟨[], ht.traced_nil, by simp, fun hok => ?_, fun _ => by simp⟩
  cases he.symm.trans hok

theorem paced_leaf (ht : Leaf t p) (hg : g ≤ n) : Paced base rank n g t p s := by
  cases hs : p s with
  | ok x s' => exact (paced_leaf_of_ok ht hs).mono le_rfl (by omega)
  | error e s' => exact paced_leaf_of_error ht hs

theorem paced_leaf_bind_of (ht : Leaf t p)
    (hf : ∀ {x s'}, p s = .ok x s' → Moves s s' →
      Paced base rank (n + entriesPerToken * (s'.used - s.used)) g (f x) (h x) s') :
    Paced base rank n g (t >>= f) (p >>= h) s := by
  cases hs : p s with
  | ok x s' =>
    refine (paced_leaf_of_ok ht hs).bind fun hok hmoves => ?_
    cases hs.symm.trans hok
    exact hf hs hmoves
  | error e s' =>
    refine (paced_leaf_of_error (m := 0) ht hs).bind fun hok _ => ?_
    cases hs.symm.trans hok

theorem paced_leaf_bind (ht : Leaf t p)
    (hf : ∀ {x s'}, Moves s s' → Paced base rank n g (f x) (h x) s') :
    Paced base rank n g (t >>= f) (p >>= h) s :=
  paced_leaf_bind_of ht fun _ hmoves => (hf hmoves).mono (by omega) (by omega)

/-- A pass that only looks at what is ahead. -/
theorem paced_still_bind {x : α}
    (ht : ∀ stack entries, t (s.traced stack entries) = .ok x (s.traced stack entries))
    (hp : p s = .ok x s) (hf : Paced base rank n g (f x) (h x) s) :
    Paced base rank n g (t >>= f) (p >>= h) s := by
  have hstill : Paced base rank n n t p s := by
    refine ⟨[], fun stack entries => ?_, by simp, fun hok => ?_, fun _ => by simp⟩
    · rw [ht, hp, List.map_nil, List.append_nil]
      rfl
    · cases hp.symm.trans hok
      exact ⟨Moves.refl s, by simp⟩
  refine hstill.bind fun hok _ => ?_
  cases hp.symm.trans hok
  exact hf

/-- A pass that reads a token earns its worth. -/
theorem paced_step_bind (ht : Leaf t p) {k : TokenKind}
    (hread : ∀ {x s'}, p s = .ok x s' → Went s [k] [] s')
    (hf : ∀ {x s'}, Moves s s' → s.used < s'.used →
      Paced base rank (n + entriesPerToken) g (f x) (h x) s') :
    Paced base rank n g (t >>= f) (p >>= h) s := by
  refine paced_leaf_bind_of ht fun hok hmoves => ?_
  have hlt := hmoves.used_lt (hread hok)
  exact (hf hmoves hlt).of_used hlt

theorem paced_next_bind {f : Token → PassOn Tracer Problem β} {h : Token → Pass β}
    (hne : s.tokens.current.kind ≠ .eof)
    (hf : ∀ {x s'}, Moves s s' → s.used < s'.used →
      Paced base rank (n + entriesPerToken) g (f x) (h x) s') :
    Paced base rank n g (next >>= f) (next >>= h) s :=
  paced_step_bind leaf_next (fun hok => (next_ok hok rfl hne).2) hf

theorem paced_accept_bind {f : Bool → PassOn Tracer Problem β} {h : Bool → Pass β} {k : TokenKind}
    (hne : k ≠ .eof) (hk : ∀ value digits, k ≠ .integer value digits)
    (htrue : ∀ {s'}, Moves s s' → s.used < s'.used →
      Paced base rank (n + entriesPerToken) g (f true) (h true) s')
    (hfalse : Paced base rank n g (f false) (h false) s) :
    Paced base rank n g (accept k >>= f) (accept k >>= h) s := by
  refine paced_leaf_bind_of (leaf_accept hne hk) fun hok hmoves => ?_
  obtain ⟨rfl, hwent⟩ | ⟨rfl, -, rfl⟩ := accept_ok hok hne
  · have hlt := hmoves.used_lt hwent
    exact (htrue hmoves hlt).of_used hlt
  · exact hfalse.mono (by omega) (by omega)

/-- What stands between two symbols is paid for by the first of them. -/
theorem paced_between {opening closing : Symbol}
    (hinside : ∀ {s'}, Moves s s' → s.used < s'.used →
      Paced base rank entriesPerToken 0 t q s') :
    Paced base rank n n (between opening closing t) (between opening closing q) s := by
  refine paced_step_bind (leaf_punctuation opening) punctuation_ok fun hmoves hlt => ?_
  refine Paced.bind (m := n) ((hinside hmoves hlt).mono (Nat.le_add_left _ _) (by omega))
    fun _ _ => ?_
  exact paced_leaf_bind (leaf_punctuation closing) fun _ => paced_leaf (leaf_pure _) le_rfl

end Leaf

/-! ## Entering functions -/

/-- The function entered is the outermost of those that are entered inside of it. A journal does not
show the bound, which may be another one there. -/
theorem paced_entering {site : Site} {bound bound' r : Nat}
    (hroom : Room base rank s.used site.rank) (hbound : 0 < bound) (hr : r < site.rank)
    (hp : Paced s.used r n g t q s) :
    Paced base rank (n + 1) g (entering site bound t) (entering site bound' q) s := by
  obtain ⟨new, hp⟩ := hp
  let frame : CallFrame := ⟨site, s.used, bound⟩
  have hlength : ([frame] :: new.map (· ++ [frame])).length = new.length + 1 := by simp
  rw [entering_eq]
  refine ⟨[frame] :: new.map (· ++ [frame]), fun stack entries => ?_, fun stack hstack => ?_,
    fun hok => ?_, fun herror => ?_⟩
  · have htraced := hp.traced (frame :: stack) (entries ++ [frame :: stack])
    have hentries : entries ++ [frame :: stack] ++ new.map (· ++ frame :: stack) =
        entries ++ ([frame] :: new.map (· ++ [frame])).map (· ++ stack) := by
      simp [Function.comp_def]
    rw [← hentries]
    exact entering_traced htraced
  · obtain rfl | hstack := List.mem_cons.mp hstack
    · exact ⟨List.pairwise_singleton _ _, by simpa [frame] using hroom,
        by simpa [frame] using hbound⟩
    · obtain ⟨inner, hinner, rfl⟩ := List.mem_map.mp hstack
      exact (hp.orderly inner hinner).append hr hroom hbound
  · obtain ⟨hmoves, hle⟩ := hp.ok hok
    exact ⟨hmoves, by omega⟩
  · have := hp.error herror
    omega

/-- A function of the given rank may be entered: there is room for it, and the bound is large enough
for the tokens that are left. -/
structure Ready (base rank bound : Nat) (s : State) (n : Nat) : Prop where
  room : Room base rank s.used n
  bound : 4 * s.left + n ≤ bound

/-- When one more token has been used up every function may be entered. -/
structure Begun (base bound : Nat) (s : State) : Prop where
  base : base ≤ s.used
  bound : 4 * s.left ≤ bound + 1

/-- No function is entered with the bound zero. -/
theorem not_ready_zero {r : Nat} : ¬ Ready base rank 0 s (r + 1) := fun h => by
  have := h.bound
  omega

theorem Ready.mono {bound : Nat} (h : Ready base rank bound s n) (hmoves : Moves s s') :
    Ready base rank bound s' n := by
  obtain ⟨hroom, hbound⟩ := h
  obtain ⟨htotal, hused⟩ := hmoves
  unfold Room at hroom
  exact ⟨by unfold Room; omega, by omega⟩

theorem Begun.mono {bound : Nat} (h : Begun base bound s) (hmoves : Moves s s') :
    Begun base bound s' := by
  obtain ⟨hbase, hbound⟩ := h
  obtain ⟨htotal, hused⟩ := hmoves
  exact ⟨by omega, by omega⟩

theorem Begun.ready {bound : Nat} (h : Begun base bound s) (hmoves : Moves s s')
    (hlt : s.used < s'.used) (hn : n ≤ 3) : Ready base rank bound s' n := by
  obtain ⟨hbase, hbound⟩ := h
  obtain ⟨htotal, hused⟩ := hmoves
  exact ⟨.inl (by omega), by omega⟩

/-- Inside a function another one of a lower rank may be entered at once. -/
theorem Ready.lower {bound r : Nat} (h : Ready base rank (bound + 1) s n) (hr : r < n)
    (hm : m ≤ r) : Ready s.used r bound s m :=
  ⟨.inr ⟨rfl, hm⟩, by have := h.bound; omega⟩

theorem Ready.begun {bound : Nat} (h : Ready base rank (bound + 1) s n) : Begun s.used bound s :=
  ⟨le_rfl, by have := h.bound; omega⟩

end Pass

end Jack
