import Mathlib.Data.ENat.Lattice
import Jack.Proofs.Text.Lines

/-!
# The first difference of two texts

Comparing two texts walks along their trimmed lines until two differ or one text ends.

1. The lines before the first difference are the longest common beginning of the two lists
   (`exists_sharedStart`).
2. Two texts differ at line `n` or later exactly when their first `n - 1` lines are the same
   (`natCast_le_place`). For each `n` this is an equivalence of texts, so the place of the first
   difference behaves as an ultrametric does: of the three places between three texts the two
   smallest are equal (`min_place_le`, `place_eq_min`).
3. `comparison_finds_first_difference` says both of texts, together with the changes of a text that
   no comparison shows.
-/

namespace Jack

/-- The longest common beginning of two lists. -/
structure SharedStart {α : Type} (p xs ys : List α) : Prop where
  left : p <+: xs
  right : p <+: ys
  longest : ∀ q, q <+: xs → q <+: ys → q <+: p

/-- The line in which two texts first differ, infinite when there is none. -/
def Comparison.place : Comparison → ℕ∞
  | identical => ⊤
  | differAt line => line

/-! ## Lists of lines -/

section Lists

variable {xs ys : List (List Char)}

theorem SharedStart.nil_left (ys : List (List Char)) : SharedStart [] [] ys :=
  ⟨List.prefix_rfl, ⟨ys, rfl⟩, fun _ h _ => h⟩

theorem SharedStart.nil_right (xs : List (List Char)) : SharedStart [] xs [] :=
  ⟨⟨xs, rfl⟩, List.prefix_rfl, fun _ _ h => h⟩

theorem SharedStart.cons {p : List (List Char)} (h : SharedStart p xs ys) (a : List Char) :
    SharedStart (a :: p) (a :: xs) (a :: ys) where
  left := List.cons_prefix_cons.mpr ⟨rfl, h.left⟩
  right := List.cons_prefix_cons.mpr ⟨rfl, h.right⟩
  longest q hxs hys := by
    cases q with
    | nil => exact ⟨a :: p, rfl⟩
    | cons b q =>
      obtain ⟨rfl, hq⟩ := List.cons_prefix_cons.mp hxs
      exact List.cons_prefix_cons.mpr ⟨rfl, h.longest q hq (List.cons_prefix_cons.mp hys).2⟩

theorem SharedStart.of_ne {a b : List Char} (h : a ≠ b) : SharedStart [] (a :: xs) (b :: ys) where
  left := ⟨a :: xs, rfl⟩
  right := ⟨b :: ys, rfl⟩
  longest q hxs hys := by
    cases q with
    | nil => exact List.prefix_rfl
    | cons c q =>
      obtain ⟨rfl, -⟩ := List.cons_prefix_cons.mp hxs
      exact absurd (List.cons_prefix_cons.mp hys).1 h

/-- The comparison of two lists of lines finds the end of their common beginning. -/
theorem exists_sharedStart (xs ys : List (List Char)) : ∃ p, SharedStart p xs ys ∧
    ∀ number, compareLines number xs ys =
      if xs = ys then .identical else .differAt (number + p.length) := by
  induction xs generalizing ys with
  | nil =>
    refine ⟨[], .nil_left ys, fun number => ?_⟩
    cases ys <;> rfl
  | cons a xs ih =>
    cases ys with
    | nil => exact ⟨[], .nil_right _, fun number => rfl⟩
    | cons b ys =>
      by_cases hab : a = b
      · obtain ⟨p, hp, hcompare⟩ := ih ys
        subst hab
        refine ⟨a :: p, hp.cons a, fun number => ?_⟩
        rw [compareLines, if_pos rfl, hcompare, List.length_cons, Nat.add_assoc, Nat.add_comm 1]
        simp only [List.cons.injEq, true_and]
      · refine ⟨[], .of_ne hab, fun number => ?_⟩
        rw [compareLines, if_neg hab, if_neg (by simp [hab])]
        rfl

theorem compareLines_comm (number : Nat) (xs ys : List (List Char)) :
    compareLines number xs ys = compareLines number ys xs := by
  fun_induction compareLines number xs ys with
  | case1 => rfl
  | case2 number a xs ys ih => rw [compareLines, if_pos rfl, ih]
  | case3 number a xs b ys hab => rw [compareLines, if_neg (Ne.symm hab)]
  | case4 => rfl
  | case5 => rfl

/-- Lists that differ from the first line on. -/
theorem natCast_le_place_differAt (h : ∀ k, xs.take k = ys.take k ↔ k = 0) (n number : Nat) :
    (n : ℕ∞) ≤ (Comparison.differAt number).place ↔
      xs.take (n - number) = ys.take (n - number) := by
  rw [h, Nat.sub_eq_zero_iff_le]
  exact ENat.natCast_le_natCast

/-- The first difference is at line `n` or later exactly when the lines before agree. -/
theorem natCast_le_place_compareLines (n number : Nat) (xs ys : List (List Char)) :
    (n : ℕ∞) ≤ (compareLines number xs ys).place ↔
      xs.take (n - number) = ys.take (n - number) := by
  fun_induction compareLines number xs ys with
  | case1 => simp [Comparison.place]
  | case2 number a xs ys ih =>
    rw [ih]
    obtain hlt | hle := Nat.lt_or_ge number n
    · rw [show n - number = n - (number + 1) + 1 by omega]
      simp
    · simp [Nat.sub_eq_zero_of_le hle, Nat.sub_eq_zero_of_le (Nat.le_succ_of_le hle)]
  | case3 number a xs b ys hab =>
    exact natCast_le_place_differAt (fun k => by cases k <;> simp [hab]) n number
  | case4 number b ys => exact natCast_le_place_differAt (fun k => by cases k <;> simp) n number
  | case5 number a xs => exact natCast_le_place_differAt (fun k => by cases k <;> simp) n number

end Lists

/-! ## Texts -/

variable {a b c : String}

theorem compareTexts_comm (a b : String) : compareTexts a b = compareTexts b a :=
  compareLines_comm 1 _ _

theorem natCast_le_place (n : Nat) (a b : String) : (n : ℕ∞) ≤ (compareTexts a b).place ↔
    (trimmedLines a).take (n - 1) = (trimmedLines b).take (n - 1) :=
  natCast_le_place_compareLines n 1 _ _

/-- Two texts do not differ before both of them differ from a third one. -/
theorem min_place_le (a b c : String) :
    min (compareTexts a b).place (compareTexts b c).place ≤ (compareTexts a c).place := by
  refine ENat.forall_natCast_le_iff_le.mp fun n hn => ?_
  obtain ⟨hab, hbc⟩ := le_min_iff.mp hn
  rw [natCast_le_place] at hab hbc ⊢
  exact hab.trans hbc

/-- Two texts that differ from a third one at different lines differ at the first of these. -/
theorem place_eq_min (h : (compareTexts a b).place ≠ (compareTexts b c).place) :
    (compareTexts a c).place = min (compareTexts a b).place (compareTexts b c).place := by
  refine le_antisymm ?_ (min_place_le a b c)
  have hab := min_place_le a c b
  have hbc := min_place_le b a c
  rw [compareTexts_comm c b] at hab
  rw [compareTexts_comm b a] at hbc
  obtain hlt | hlt := lt_or_gt_of_ne h
  · rw [min_eq_left hlt.le]
    exact (min_le_iff.mp hab).resolve_right (not_le_of_gt hlt)
  · rw [min_eq_right hlt.le]
    exact (min_le_iff.mp hbc).resolve_left (not_le_of_gt hlt)

/-- **A comparison finds the first difference of the trimmed lines.** Every text has one list of
trimmed lines. Two texts are identical when these lists are equal, and otherwise they differ at the
line after the longest common beginning of the lists. A comparison is symmetric. It does not show
carriage returns that are put before line feeds, nor a line feed after a last line that is not
empty. If of three texts the first two differ at one line and the last two at another, the outer
ones differ at the first of these lines; if both differ at the same line, the outer ones do not
differ before it. -/
theorem comparison_finds_first_difference (l r : String) :
    (∃! ls, HasTrimmedLines l ls) ∧
    (∀ ls rs, HasTrimmedLines l ls → HasTrimmedLines r rs →
      (compareTexts l r = .identical ↔ ls = rs) ∧
      (ls ≠ rs → ∃ p, SharedStart p ls rs ∧ compareTexts l r = .differAt (1 + p.length))) ∧
    compareTexts r l = compareTexts l r ∧
    (∀ l' : String, Returned l.toList l'.toList → compareTexts l' r = compareTexts l r) ∧
    (∀ c, c ≠ '\n' → compareTexts ((l.push c).push '\n') r = compareTexts (l.push c) r) ∧
    ∀ m : String,
      min (compareTexts l m).place (compareTexts m r).place ≤ (compareTexts l r).place ∧
      ((compareTexts l m).place ≠ (compareTexts m r).place →
        (compareTexts l r).place = min (compareTexts l m).place (compareTexts m r).place) := by
  refine ⟨⟨trimmedLines l, hasTrimmedLines_iff.mpr rfl, fun _ => hasTrimmedLines_iff.mp⟩, ?_,
    compareTexts_comm r l, ?_, ?_, fun m => ⟨min_place_le l m r, place_eq_min⟩⟩
  · intro ls rs hls hrs
    obtain rfl := hasTrimmedLines_iff.mp hls
    obtain rfl := hasTrimmedLines_iff.mp hrs
    obtain ⟨p, hp, hcompare⟩ := exists_sharedStart (trimmedLines l) (trimmedLines r)
    have htexts : compareTexts l r = _ := hcompare 1
    rw [htexts]
    constructor
    · split_ifs with heq <;> simp [heq]
    · intro hne
      exact ⟨p, hp, if_neg hne⟩
  · intro l' hl'
    unfold compareTexts trimmedLines
    rw [map_trim_of_returned hl']
  · intro c hc
    have hlines : trimmedLines ((l.push c).push '\n') = trimmedLines (l.push c) := by
      unfold trimmedLines
      simp [textLines_concat l.toList hc]
    unfold compareTexts
    rw [hlines]

/-- One text has a line more, and its second line ends with a carriage return. -/
example : compareTexts "push constant 1\n  add\n" "push constant 1\nadd \r\nreturn" =
    .differAt 3 := by
  decide

end Jack
