/-
MsgHandler/Pattern.lean

Patterns of regular expressions, matched as Perl matches them.

A pattern is a list of pieces, and only single elements of a class are
repeated.  A repetition tries its lengths one after the other, the longest
first or, for a lazy one, the shortest first, and takes the first with which
the rest of the pattern matches (`matchAt`).  A search tries the positions from
the left.  So the rule for a repetition is

    the rest fails for the lengths before k in the order, and matches for k,

once for each order (`matchAt_lazy`, `matchAt_greedy`).
-/
import Mathlib.Data.List.Basic
import Mathlib.Data.List.Infix
import Mathlib.Data.List.TakeWhile

namespace Xkim

/-- The order in which the lengths of a repetition are tried. -/
inductive Order
  | greedy
  | reluctant
  deriving DecidableEq, Repr

/-- The lengths up to `n`. -/
def Order.lengths : Order → ℕ → List ℕ
  | .greedy, n => (List.range (n + 1)).reverse
  | .reluctant, n => List.range (n + 1)

/-- A piece of a pattern: an element of a class, a repetition of such elements
that may be captured, and the end of the text or of its last line. -/
inductive Piece (α : Type*)
  | one (p : α → Bool)
  | many (p : α → Bool) (order : Order) (captured : Bool)
  | lineEnd (newline : α)

variable {α : Type*} [DecidableEq α]

/-- The captures of the first match at the start of the text. -/
def matchAt : List (Piece α) → List α → Option (List (List α))
  | [], _ => some []
  | .one p :: ps, s => s.head?.bind fun c => if p c then matchAt ps s.tail else none
  | .many p order captured :: ps, s =>
    (order.lengths (s.takeWhile p).length).findSome? fun k =>
      (matchAt ps (s.drop k)).map fun caps => if captured then s.take k :: caps else caps
  | .lineEnd newline :: ps, s => if s = [] ∨ s = [newline] then matchAt ps s else none

/-- The captures of the first match from the left. -/
def search (ps : List (Piece α)) (s : List α) : Option (List (List α)) :=
  s.tails.findSome? (matchAt ps)

variable {p : α → Bool} {order : Order} {captured : Bool} {ps : List (Piece α)} {s t : List α}
  {caps : List (List α)}

theorem Order.mem_lengths {n k : ℕ} : k ∈ order.lengths n ↔ k ≤ n := by
  cases order with
  | greedy => rw [Order.lengths, List.mem_reverse, List.mem_range, Nat.lt_succ_iff]
  | reluctant => rw [Order.lengths, List.mem_range, Nat.lt_succ_iff]

/-! ### Repetitions -/

/-- The first length with which the rest matches. -/
theorem matchAt_many {k : ℕ} {earlier later : List ℕ}
    (hlengths : order.lengths (s.takeWhile p).length = earlier ++ k :: later)
    (hearlier : ∀ j ∈ earlier, matchAt ps (s.drop j) = none)
    (hk : matchAt ps (s.drop k) = some caps) :
    matchAt (.many p order captured :: ps) s =
      some (if captured then s.take k :: caps else caps) := by
  have hnone : earlier.findSome? (fun j => (matchAt ps (s.drop j)).map fun caps =>
      if captured then s.take j :: caps else caps) = none := by
    rw [List.findSome?_eq_none_iff]
    intro j hj
    rw [hearlier j hj, Option.map_none]
  rw [matchAt, hlengths, List.findSome?_append, hnone, Option.none_or,
    List.findSome?_cons_of_isSome, hk]
  · rfl
  · rw [hk]
    rfl

/-- **A lazy repetition** takes `u` if the rest does not match before. -/
theorem matchAt_reluctant {u : List α} (hu : ∀ c ∈ u, p c)
    (hless : ∀ a b, u = a ++ b → b ≠ [] → matchAt ps (b ++ t) = none)
    (hmatch : matchAt ps t = some caps) :
    matchAt (.many p .reluctant captured :: ps) (u ++ t) =
      some (if captured then u :: caps else caps) := by
  have hlengths : Order.reluctant.lengths ((u ++ t).takeWhile p).length =
      List.range u.length ++ u.length :: (List.range (t.takeWhile p).length).map
        (u.length + 1 + ·) := by
    rw [List.takeWhile_append_of_pos hu, List.length_append, Order.lengths, Nat.add_right_comm,
      List.range_add, List.range_succ, List.append_assoc]
    rfl
  rw [matchAt_many hlengths, List.take_left]
  · intro j hj
    have hj := List.mem_range.mp hj
    rw [List.drop_append_of_le_length hj.le]
    refine hless (u.take j) (u.drop j) (List.take_append_drop j u).symm ?_
    rw [Ne, List.drop_eq_nil_iff]
    omega
  · rw [List.drop_left, hmatch]

/-- **A greedy repetition** takes all it can, if the rest matches then. -/
theorem matchAt_greedy {u : List α} (hu : ∀ c ∈ u, p c) (ht : ∀ c ∈ t.head?, ¬ p c)
    (hmatch : matchAt ps t = some caps) :
    matchAt (.many p .greedy captured :: ps) (u ++ t) =
      some (if captured then u :: caps else caps) := by
  have htake : t.takeWhile p = [] := by
    cases t with
    | nil => rfl
    | cons c t => exact List.takeWhile_cons_of_neg (ht c rfl)
  have hlengths : Order.greedy.lengths ((u ++ t).takeWhile p).length =
      [] ++ u.length :: (List.range u.length).reverse := by
    rw [List.takeWhile_append_of_pos hu, htake, List.append_nil, Order.lengths, List.range_succ,
      List.reverse_append]
    rfl
  rw [matchAt_many hlengths, List.take_left]
  · exact fun j hj => nomatch hj
  · rw [List.drop_left, hmatch]

theorem matchAt_one {c : α} (hc : p c) : matchAt (.one p :: ps) (c :: s) = matchAt ps s := by
  rw [matchAt, List.head?_cons, Option.bind_some, if_pos hc, List.tail_cons]

theorem matchAt_one_eq_none {c : α} (hc : ¬ p c) : matchAt (.one p :: ps) (c :: s) = none := by
  rw [matchAt, List.head?_cons, Option.bind_some, if_neg hc]

/-! ### Whether a pattern matches -/

/-- A repetition matches iff the rest does for some length. -/
theorem matchAt_many_isSome :
    (matchAt (.many p order captured :: ps) s).isSome ↔
      ∃ u t, s = u ++ t ∧ (∀ c ∈ u, p c) ∧ (matchAt ps t).isSome := by
  rw [matchAt, List.findSome?_isSome_iff]
  simp only [Order.mem_lengths, Option.isSome_map]
  constructor
  · rintro ⟨k, hk, hmatch⟩
    refine ⟨s.take k, s.drop k, (List.take_append_drop k s).symm, ?_, hmatch⟩
    have hpart : s.take k <+: s.takeWhile p :=
      List.prefix_of_prefix_length_le (List.take_prefix k s) (List.takeWhile_prefix p)
        (le_trans (List.length_take_le k s) hk)
    exact fun c hc => List.mem_takeWhile_imp (hpart.subset hc)
  · rintro ⟨u, t, rfl, hu, hmatch⟩
    refine ⟨u.length, ?_, by rwa [List.drop_left]⟩
    rw [List.takeWhile_append_of_pos hu, List.length_append]
    exact Nat.le_add_right _ _

/-- A repetition of length zero, with which the rest does not match. -/
theorem matchAt_many_eq_none {c : α} (hc : ¬ p c) (hps : matchAt ps (c :: s) = none) :
    matchAt (.many p order captured :: ps) (c :: s) = none := by
  rw [← Option.not_isSome_iff_eq_none, matchAt_many_isSome]
  rintro ⟨u, t, hut, hu, hmatch⟩
  rcases u with - | ⟨d, u⟩
  · rw [List.nil_append] at hut
    rw [← hut, hps] at hmatch
    cases hmatch
  · rw [(List.cons.inj hut).1] at hc
    exact hc (hu d List.mem_cons_self)

theorem matchAt_one_isSome :
    (matchAt (.one p :: ps) s).isSome ↔ ∃ c t, s = c :: t ∧ p c ∧ (matchAt ps t).isSome := by
  cases s with
  | nil => simp [matchAt]
  | cons c s =>
    by_cases hc : p c
    · simp [matchAt_one hc, hc]
    · simp [matchAt_one_eq_none hc, hc]

theorem search_isSome : (search ps s).isSome ↔ ∃ t, t <:+ s ∧ (matchAt ps t).isSome := by
  rw [search, List.findSome?_isSome_iff]
  simp only [List.mem_tails]

/-- A match at the start is the first from the left. -/
theorem search_of_matchAt (h : matchAt ps s = some caps) : search ps s = some caps := by
  cases s with
  | nil =>
    show [[]].findSome? (matchAt ps) = some caps
    rw [List.findSome?_singleton, h]
  | cons c s =>
    rw [search, List.tails_cons, List.findSome?_cons_of_isSome, h]
    rw [h]
    rfl

/-! ### What is captured -/

theorem mem_of_matchAt (h : matchAt ps s = some caps) {u : List α} (hu : u ∈ caps) : u ⊆ s := by
  induction ps generalizing s caps with
  | nil =>
    rw [matchAt, Option.some.injEq] at h
    rw [← h] at hu
    cases hu
  | cons piece ps ih =>
    cases piece with
    | one p =>
      obtain ⟨c, t, rfl, hc, -⟩ := matchAt_one_isSome.mp (Option.isSome_of_eq_some h)
      rw [matchAt_one hc] at h
      exact List.Subset.trans (ih h hu) (List.subset_cons_self c t)
    | many p order captured =>
      obtain ⟨k, -, hk⟩ := List.exists_of_findSome?_eq_some h
      obtain ⟨caps', hmatch, rfl⟩ := Option.map_eq_some_iff.mp hk
      split_ifs at hu
      · rcases List.mem_cons.mp hu with rfl | hu
        · exact List.take_subset k s
        · exact List.Subset.trans (ih hmatch hu) (List.drop_subset k s)
      · exact List.Subset.trans (ih hmatch hu) (List.drop_subset k s)
    | lineEnd newline =>
      rw [matchAt] at h
      split_ifs at h
      exact ih h hu

/-- What is captured is taken from the text. -/
theorem mem_of_search (h : search ps s = some caps) {u : List α} (hu : u ∈ caps) : u ⊆ s := by
  obtain ⟨t, ht, hmatch⟩ := List.exists_of_findSome?_eq_some h
  exact List.Subset.trans (mem_of_matchAt hmatch hu) ((List.mem_tails t s).mp ht).subset

end Xkim
