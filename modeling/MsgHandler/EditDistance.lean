/-
MsgHandler/EditDistance.lean

`StringAlgorithms::EditDistance` (`framework/lib/string_algorithms.cpp`).

The function fills a matrix `m`, where `m[i][j]` is meant to be the distance
of the first `i` characters of one string and the first `j` of the other.
The last edit of a script decides which of the earlier cells its cost is
counted from.  A swap is taken into account under the condition

    i > 2 && j > 2 && ...

but the first two characters of both strings are those with `i == 2` and
`j == 2`.  So the matrix holds the least cost of the scripts that do not
begin with a swap (`editDistanceImpl_eq_osaLate`).  The two strings "ab" and
"ba" are at distance 2.

All overloads come down to the same template, after `strlen` or `wcslen` has
cut the strings at the first NUL, also where they are a `std::string`.
-/
import MsgHandler.EditScript
import MsgHandler.Table

namespace Xkim

namespace StringAlgorithms

variable {T : Type*} [DecidableEq T]

/-! ### The matrix -/

/-- What is written to `m[i][j]`, for `i` and `j` from 1 on. -/
def cell (s t : List T) (m : ℕ → ℕ → ℕ) (i j : ℕ) : ℕ :=
  let cost := if s[i - 1]? = t[j - 1]? then 0 else 1
  let v := min (min (m (i - 1) j + 1) (m i (j - 1) + 1)) (m (i - 1) (j - 1) + cost)
  if i > 2 ∧ j > 2 ∧ s[i - 1]? = t[j - 2]? ∧ s[i - 2]? = t[j - 1]? then
    min v (m (i - 2) (j - 2) + cost)
  else v

/-- The first loop: `m[i][0] = i`. -/
def firstColumn (n : ℕ) (m : ℕ → ℕ → ℕ) : ℕ → ℕ → ℕ := Table.column id n m

/-- The second loop: `m[0][i] = i`. -/
def firstRow (n : ℕ) (m : ℕ → ℕ → ℕ) : ℕ → ℕ → ℕ := Table.row id n m

/-- The nested loops. -/
def fill (s t : List T) (m : ℕ → ℕ → ℕ) : ℕ → ℕ → ℕ :=
  Table.fill (cell s t) s.length t.length m

/-- `_EditDistance<T>(tstr1, tstr1len, tstr2, tstr2len)`; `m` is not
initialised. -/
def editDistanceImpl (m : ℕ → ℕ → ℕ) (s t : List T) : ℕ :=
  fill s t (firstRow t.length (firstColumn s.length m)) s.length t.length

/-- `c_str()`, up to where `strlen` stops. -/
def cStr (nul : T) (s : List T) : List T := s.takeWhile (· ≠ nul)

/-- `EditDistance(str1, str2)`. -/
def editDistance (nul : T) (m : ℕ → ℕ → ℕ) (s t : List T) : ℕ :=
  editDistanceImpl m (cStr nul s) (cStr nul t)

/-! ### The loops establish the recurrence -/

variable {s t : List T} {m : ℕ → ℕ → ℕ} {i j : ℕ}

/-- A cell depends on those before it, row by row. -/
theorem causal_cell (s t : List T) : Table.Causal (cell s t) := by
  intro m m' i j h
  have hup : m' i (j + 1) = m i (j + 1) := h _ _ (by omega)
  have hleft : m' (i + 1) j = m (i + 1) j := h _ _ (by omega)
  have hdiag : m' i j = m i j := h _ _ (by omega)
  have hback : m' (i - 1) (j - 1) = m (i - 1) (j - 1) := h _ _ (by omega)
  simp only [cell, Nat.add_sub_cancel, hup, hleft, hdiag]
  rw [show i + 1 - 2 = i - 1 by omega, show j + 1 - 2 = j - 1 by omega, hback]

theorem fill_solved (s t : List T) (m : ℕ → ℕ → ℕ) :
    Table.Solved (cell s t) m (fill s t m) t.length s.length 0 :=
  Table.solved_fill (causal_cell s t) s.length t.length m

/-- The first column and row are filled, and so are the cells of the first `i`
rows and of the first `j` columns of the next one. -/
structure Filled (s t : List T) (m : ℕ → ℕ → ℕ) (i j : ℕ) : Prop where
  column : ∀ i' ≤ s.length, m i' 0 = i'
  row : ∀ j' ≤ t.length, m 0 j' = j'
  cells : ∀ i' j', i' < s.length → j' < t.length → i' < i ∨ i' = i ∧ j' < j →
    m (i' + 1) (j' + 1) = cell s t m (i' + 1) (j' + 1)

theorem firstColumn_apply (n : ℕ) (m : ℕ → ℕ → ℕ) (i j : ℕ) :
    firstColumn n m i j = if i ≤ n ∧ j = 0 then i else m i j :=
  Table.column_apply id n m i j

theorem firstRow_apply (n : ℕ) (m : ℕ → ℕ → ℕ) (i j : ℕ) :
    firstRow n m i j = if i = 0 ∧ j ≤ n then j else m i j :=
  Table.row_apply id n m i j

/-! ### What the cells are at most -/

theorem cell_le (s t : List T) (m : ℕ → ℕ → ℕ) (i j : ℕ) :
    cell s t m (i + 1) (j + 1) ≤ m i (j + 1) + 1 ∧ cell s t m (i + 1) (j + 1) ≤ m (i + 1) j + 1 ∧
      cell s t m (i + 1) (j + 1) ≤ m i j + if s[i]? = t[j]? then 0 else 1 := by
  simp only [cell, Nat.add_sub_cancel]
  split_ifs <;> omega

theorem cell_le_swap (hi : 0 < i) (hj : 0 < j) (hfirst : s[i + 1]? = t[j]?)
    (hsecond : s[i]? = t[j + 1]?) : cell s t m (i + 2) (j + 2) ≤ m i j + 1 := by
  have hcond : i + 2 > 2 ∧ j + 2 > 2 ∧ s[i + 2 - 1]? = t[j + 2 - 2]? ∧
      s[i + 2 - 2]? = t[j + 2 - 1]? := ⟨by omega, by omega, hfirst, hsecond⟩
  unfold cell
  dsimp only
  rw [if_pos hcond]
  refine (min_le_right _ _).trans ?_
  rw [Nat.add_sub_cancel, Nat.add_sub_cancel]
  split_ifs <;> omega

/-- All cells are filled. -/
abbrev Complete (s t : List T) (m : ℕ → ℕ → ℕ) : Prop := Filled s t m s.length 0

/-- The loops fill the matrix. -/
theorem complete_fill (s t : List T) (m : ℕ → ℕ → ℕ) :
    Complete s t (fill s t (firstRow t.length (firstColumn s.length m))) := by
  have h := fill_solved s t (firstRow t.length (firstColumn s.length m))
  refine ⟨?_, ?_, ?_⟩
  · intro i hi
    rw [h.column, firstRow_apply, firstColumn_apply]
    split_ifs <;> omega
  · intro j hj
    rw [h.row, firstRow_apply, if_pos ⟨rfl, hj⟩]
  · intro i j _ hj hbefore
    exact h.cells i j hj hbefore

namespace Filled

variable (h : Complete s t m)

include h

theorem delete_le (hi : i < s.length) (hj : j ≤ t.length) : m (i + 1) j ≤ m i j + 1 := by
  cases j with
  | zero => rw [h.column _ hi, h.column _ hi.le]
  | succ j =>
    rw [h.cells i j hi hj (Or.inl hi)]
    exact (cell_le s t m i j).1

theorem insert_le (hi : i ≤ s.length) (hj : j < t.length) : m i (j + 1) ≤ m i j + 1 := by
  cases i with
  | zero => rw [h.row _ hj, h.row _ hj.le]
  | succ i =>
    rw [h.cells i j hi hj (Or.inl hi)]
    exact (cell_le s t m i j).2.1

theorem subst_le (hi : i < s.length) (hj : j < t.length) : m (i + 1) (j + 1) ≤ m i j + 1 := by
  have hle := (cell_le s t m i j).2.2
  rw [h.cells i j hi hj (Or.inl hi)]
  split_ifs at hle <;> omega

theorem keep_le (hi : i < s.length) (hj : j < t.length) (heq : s[i]? = t[j]?) :
    m (i + 1) (j + 1) ≤ m i j := by
  have hle := (cell_le s t m i j).2.2
  rw [h.cells i j hi hj (Or.inl hi)]
  rwa [if_pos heq] at hle

/-- A swap that is not at the start of both strings.  Where it is at the start
of one of them, the cells next to it are as good. -/
theorem swap_le (hi : i + 1 < s.length) (hj : j + 1 < t.length) (hne : ¬ (i = 0 ∧ j = 0))
    (hfirst : s[i + 1]? = t[j]?) (hsecond : s[i]? = t[j + 1]?) :
    m (i + 2) (j + 2) ≤ m i j + 1 := by
  rcases i with - | i
  · -- the first character is substituted, the second one kept
    obtain ⟨j, rfl⟩ : ∃ j', j = j' + 1 := ⟨j - 1, by omega⟩
    have hsubst : m 1 (j + 1) ≤ m 0 j + 1 := h.subst_le (by omega) (by omega)
    have hkeep : m 2 (j + 2) ≤ m 1 (j + 1) := h.keep_le (by omega) (by omega) hfirst
    have hinsert : m 2 (j + 3) ≤ m 2 (j + 2) + 1 := h.insert_le (by omega) (by omega)
    have hrow := h.row j (by omega)
    have hrow' := h.row (j + 1) (by omega)
    show m 2 (j + 3) ≤ m 0 (j + 1) + 1
    omega
  · rcases j with - | j
    · -- and the other way around
      have hsubst : m (i + 1) 1 ≤ m i 0 + 1 := h.subst_le (by omega) (by omega)
      have hkeep : m (i + 2) 2 ≤ m (i + 1) 1 := h.keep_le (by omega) (by omega) hsecond
      have hdelete : m (i + 3) 2 ≤ m (i + 2) 2 + 1 := h.delete_le (by omega) (by omega)
      have hcolumn := h.column i (by omega)
      have hcolumn' := h.column (i + 1) (by omega)
      show m (i + 3) 2 ≤ m (i + 1) 0 + 1
      omega
    · rw [h.cells (i + 2) (j + 2) hi hj (Or.inl hi)]
      exact cell_le_swap (by omega) (by omega) hfirst hsecond

end Filled

omit [DecidableEq T] in
/-- The last character of a part of the string. -/
theorem of_concat_eq_take {l : List T} {a : T} (h : s.take i = l ++ [a]) (hi : i ≤ s.length) :
    ∃ i', i = i' + 1 ∧ l = s.take i' ∧ s[i']? = some a := by
  have hlen := congrArg List.length h
  rw [List.length_take, List.length_append, List.length_singleton, Nat.min_eq_left hi] at hlen
  subst hlen
  refine ⟨l.length, rfl, ?_, ?_⟩
  · have htake := congrArg (List.take l.length) h
    rw [List.take_take, Nat.min_eq_left (by omega), List.take_left'] at htake
    · exact htake.symm
    · rfl
  · have hget := congrArg (fun k : List T => k[l.length]?) h
    simpa [List.getElem?_take] using hget

/-- **No script is cheaper**, unless it begins with a swap. -/
theorem le_total (h : Complete s t m) {e : List (Edit T)} (hfirst : Edit.NotSwapFirst e)
    (hi : i ≤ s.length) (hj : j ≤ t.length) (he : Edit.Turns e (s.take i) (t.take j)) :
    m i j ≤ Edit.total e := by
  -- the last edit tells which cell to come from
  induction e using List.reverseRecOn generalizing i j with
  | nil =>
    have hs := congrArg List.length he.1
    have ht := congrArg List.length he.2
    simp only [List.flatMap_nil, List.length_nil, List.length_take] at hs ht
    obtain rfl : i = 0 := by omega
    obtain rfl : j = 0 := by omega
    rw [h.column 0 hi]
    exact Nat.zero_le _
  | append_singleton e x ih =>
    obtain ⟨u, v, hs, ht, hrest⟩ := he.of_concat
    have hfirst' : Edit.NotSwapFirst e := by
      cases e with
      | nil => exact fun a b => by simp
      | cons y e => exact hfirst
    rw [Edit.total_append]
    cases x with
    | keep a =>
      obtain ⟨i, rfl, rfl, hsa⟩ := of_concat_eq_take hs hi
      obtain ⟨j, rfl, rfl, hta⟩ := of_concat_eq_take ht hj
      have hle := h.keep_le hi hj (hsa.trans hta.symm)
      have hcost := ih hfirst' (by omega) (by omega) hrest
      simp only [Edit.total_cons, Edit.total_nil, Edit.cost]
      omega
    | insert a =>
      obtain ⟨j, rfl, rfl, -⟩ := of_concat_eq_take ht hj
      obtain rfl : s.take i = u := by rw [hs]; exact List.append_nil u
      have hle := h.insert_le hi hj
      have hcost := ih hfirst' hi (by omega) hrest
      simp only [Edit.total_cons, Edit.total_nil, Edit.cost]
      omega
    | delete a =>
      obtain ⟨i, rfl, rfl, -⟩ := of_concat_eq_take hs hi
      obtain rfl : t.take j = v := by rw [ht]; exact List.append_nil v
      have hle := h.delete_le hi hj
      have hcost := ih hfirst' (by omega) hj hrest
      simp only [Edit.total_cons, Edit.total_nil, Edit.cost]
      omega
    | subst a b =>
      obtain ⟨i, rfl, rfl, -⟩ := of_concat_eq_take hs hi
      obtain ⟨j, rfl, rfl, -⟩ := of_concat_eq_take ht hj
      have hle := h.subst_le hi hj
      have hcost := ih hfirst' (by omega) (by omega) hrest
      simp only [Edit.total_cons, Edit.total_nil, Edit.cost]
      omega
    | swap a b =>
      have hs' : s.take i = (u ++ [a]) ++ [b] := by rw [hs]; simp [Edit.source]
      have ht' : t.take j = (v ++ [b]) ++ [a] := by rw [ht]; simp [Edit.target]
      obtain ⟨i, rfl, hu, hsb⟩ := of_concat_eq_take hs' hi
      obtain ⟨i, rfl, rfl, hsa⟩ := of_concat_eq_take hu.symm (by omega)
      obtain ⟨j, rfl, hv, hta⟩ := of_concat_eq_take ht' hj
      obtain ⟨j, rfl, rfl, htb⟩ := of_concat_eq_take hv.symm (by omega)
      have hne : ¬ (i = 0 ∧ j = 0) := by
        rintro ⟨rfl, rfl⟩
        obtain rfl := hrest.eq_nil
        exact hfirst a b rfl
      have hle : m (i + 1 + 1) (j + 1 + 1) ≤ m i j + 1 :=
        h.swap_le (by omega) (by omega) hne (hsb.trans htb.symm) (hsa.trans hta.symm)
      have hcost := ih hfirst' (by omega) (by omega) hrest
      simp only [Edit.total_cons, Edit.total_nil, Edit.cost]
      omega

/-! ### What the cells are -/

/-- The cell is counted from one of those before it. -/
theorem cell_cases (s t : List T) (m : ℕ → ℕ → ℕ) (i j : ℕ) :
    cell s t m (i + 1) (j + 1) = m i (j + 1) + 1 ∨ cell s t m (i + 1) (j + 1) = m (i + 1) j + 1 ∨
      cell s t m (i + 1) (j + 1) = m i j + (if s[i]? = t[j]? then 0 else 1) ∨
        ∃ i' j', i = i' + 2 ∧ j = j' + 2 ∧ s[i]? = t[j' + 1]? ∧ s[i' + 1]? = t[j]? ∧
          cell s t m (i + 1) (j + 1) = m (i' + 1) (j' + 1) + (if s[i]? = t[j]? then 0 else 1) := by
  unfold cell
  dsimp only
  simp only [Nat.add_sub_cancel]
  generalize hcost : (if s[i]? = t[j]? then 0 else 1) = cost
  have hmin : min (min (m i (j + 1) + 1) (m (i + 1) j + 1)) (m i j + cost) = m i (j + 1) + 1 ∨
      min (min (m i (j + 1) + 1) (m (i + 1) j + 1)) (m i j + cost) = m (i + 1) j + 1 ∨
      min (min (m i (j + 1) + 1) (m (i + 1) j + 1)) (m i j + cost) = m i j + cost := by
    omega
  split_ifs with hswap
  · obtain ⟨hi, hj, hfirst, hsecond⟩ := hswap
    obtain ⟨i, rfl⟩ : ∃ i', i = i' + 2 := ⟨i - 2, by omega⟩
    obtain ⟨j, rfl⟩ : ∃ j', j = j' + 2 := ⟨j - 2, by omega⟩
    rcases min_choice (min (min (m (i + 2) (j + 2 + 1) + 1) (m (i + 2 + 1) (j + 2) + 1))
        (m (i + 2) (j + 2) + cost)) (m (i + 2 + 1 - 2) (j + 2 + 1 - 2) + cost) with hleft | hright
    · rw [hleft]
      rcases hmin with h | h | h
      · exact Or.inl h
      · exact Or.inr (Or.inl h)
      · exact Or.inr (Or.inr (Or.inl h))
    · rw [hright]
      exact Or.inr (Or.inr (Or.inr ⟨i, j, rfl, rfl, hfirst, hsecond, rfl⟩))
  · rcases hmin with h | h | h
    · exact Or.inl h
    · exact Or.inr (Or.inl h)
    · exact Or.inr (Or.inr (Or.inl h))

omit [DecidableEq T] in
theorem take_succ_of_getElem? {a : T} (h : s[i]? = some a) : s.take (i + 1) = s.take i ++ [a] := by
  rw [List.take_add_one, h]
  rfl

/-- **Every cell is the cost of a script** that does not begin with a swap. -/
theorem exists_total (h : Complete s t m) (hi : i ≤ s.length) (hj : j ≤ t.length) :
    Edit.CostsLate (s.take i) (t.take j) (m i j) := by
  induction hn : i + j using Nat.strong_induction_on generalizing i j with
  | _ n ih =>
    -- in the first row and column everything is inserted or deleted
    have hedge : m i j = i + j → Edit.CostsLate (s.take i) (t.take j) (m i j) := by
      intro hm
      refine ⟨_, Edit.notSwapFirst_rewrite _ _, Edit.turns_rewrite _ _, ?_⟩
      rw [Edit.total_rewrite, List.length_take, List.length_take, hm, Nat.min_eq_left hi,
        Nat.min_eq_left hj]
    rcases i with - | i
    · exact hedge (by rw [h.row j hj]; omega)
    rcases j with - | j
    · exact hedge (h.column _ hi)
    obtain ⟨a, hsa⟩ : ∃ a, s[i]? = some a := ⟨_, List.getElem?_eq_getElem hi⟩
    obtain ⟨b, htb⟩ : ∃ b, t[j]? = some b := ⟨_, List.getElem?_eq_getElem hj⟩
    have hsa' := take_succ_of_getElem? hsa
    have htb' := take_succ_of_getElem? htb
    rw [h.cells i j hi hj (Or.inl hi)]
    rcases cell_cases s t m i j with hm | hm | hm | ⟨i', j', rfl, rfl, hfirst, hsecond, hm⟩
    · -- the last character is deleted
      have hlate := ih (i + (j + 1)) (by omega) (by omega) hj rfl
      rw [hm]
      exact hlate.concat (.delete a) (by simp) hsa' (List.append_nil _).symm
    · -- inserted
      have hlate := ih (i + 1 + j) (by omega) hi (by omega) rfl
      rw [hm]
      exact hlate.concat (.insert b) (by simp) (List.append_nil _).symm htb'
    · -- kept or substituted
      have hlate := ih (i + j) (by omega) (by omega) (by omega) rfl
      rw [hm, hsa, htb]
      split_ifs with hab
      · obtain rfl := Option.some.inj hab
        exact hlate.concat (.keep a) (by simp) hsa' htb'
      · exact hlate.concat (.subst a b) (by simp) hsa' htb'
    · -- swapped with the one before it
      have hlate := ih (i' + 1 + (j' + 1)) (by omega) (by omega) (by omega) rfl
      have hsb' := take_succ_of_getElem? (hsecond.trans htb)
      have hta' := take_succ_of_getElem? (hfirst.symm.trans hsa)
      rw [hm, hsa, htb]
      split_ifs with hab
      · -- of four equal characters two are kept
        obtain rfl := Option.some.inj hab
        exact (hlate.concat (.keep a) (by simp) hsb' hta').concat (.keep a) (by simp) hsa' htb'
      · refine hlate.concat (.swap b a) ?_ ?_ ?_
        · intro hnil
          have hlen := congrArg List.length hnil
          simp only [List.length_nil, List.length_take] at hlen
          omega
        · rw [hsa', hsb', List.append_assoc]
          rfl
        · rw [htb', hta', List.append_assoc]
          rfl

/-- **The function computes the least cost of the scripts that do not begin
with a swap.** -/
theorem editDistanceImpl_eq_osaLate (m : ℕ → ℕ → ℕ) (s t : List T) :
    editDistanceImpl m s t = Edit.osaLate s t := by
  have h := complete_fill s t m
  unfold editDistanceImpl
  refine le_antisymm ?_ ?_
  · obtain ⟨e, hfirst, he, hcost⟩ := Edit.exists_osaLate s t
    rw [← hcost]
    refine le_total h hfirst le_rfl le_rfl ?_
    rwa [List.take_length, List.take_length]
  · obtain ⟨e, hfirst, he, hcost⟩ := exists_total h le_rfl le_rfl
    rw [List.take_length, List.take_length] at he
    rw [← hcost]
    exact Edit.osaLate_le hfirst he

/-! ### When the result is the distance -/

theorem cStr_of_not_mem {nul : T} (h : nul ∉ s) : cStr nul s = s := by
  refine List.takeWhile_eq_self_iff.mpr ?_
  intro a ha
  refine decide_eq_true ?_
  rintro rfl
  exact h ha

/-- A C string in memory. -/
theorem cStr_append_cons {nul : T} (h : nul ∉ s) (rest : List T) :
    cStr nul (s ++ nul :: rest) = s := by
  rw [cStr, List.takeWhile_append_of_pos]
  · simp
  · intro a ha
    refine decide_eq_true ?_
    rintro rfl
    exact h ha

open Classical in
/-- Strings without NUL: the distance can be had without a swap of the first
two characters.  Other strings: the parts before the NUL have the same
distance, with what a missing swap at the start costs. -/
def Exact (nul : T) (s t : List T) : Prop :=
  (nul ∉ s ∧ nul ∉ t → ¬ Edit.NeedsFirstSwap s t) ∧
  (nul ∈ s ∨ nul ∈ t → Edit.osa (cStr nul s) (cStr nul t) +
    (if Edit.NeedsFirstSwap (cStr nul s) (cStr nul t) then 1 else 0) = Edit.osa s t)

/-- **When `EditDistance` is the optimal string alignment distance**, for all
strings of any kind of character. -/
theorem editDistance_eq_osa_iff (nul : T) (m : ℕ → ℕ → ℕ) (s t : List T) :
    editDistance nul m s t = Edit.osa s t ↔ Exact nul s t := by
  unfold editDistance Exact
  rw [editDistanceImpl_eq_osaLate]
  by_cases hnul : nul ∈ s ∨ nul ∈ t
  · have hnot : ¬ (nul ∉ s ∧ nul ∉ t) := by tauto
    rw [Edit.osaLate_eq]
    exact ⟨fun heq => ⟨fun h => absurd h hnot, fun _ => heq⟩, fun h => h.2 hnul⟩
  · obtain ⟨hs, ht⟩ := not_or.mp hnul
    rw [cStr_of_not_mem hs, cStr_of_not_mem ht, Edit.osaLate_eq_iff]
    exact ⟨fun h => ⟨fun _ => h, fun h' => absurd h' hnul⟩, fun h => h.1 ⟨hs, ht⟩⟩

/-- **The two strings "ab" and "ba"** are one swap apart, and the result is 2. -/
theorem editDistance_ab_ba :
    editDistance (0 : UInt8) (fun _ _ => 0) [97, 98] [98, 97] = 2 ∧
      Edit.osa ([97, 98] : List UInt8) [98, 97] = 1 := by
  refine ⟨by decide, le_antisymm ?_ ?_⟩
  · exact Edit.osa_le (Edit.turns_singleton (.swap 97 98))
  · refine Nat.one_le_iff_ne_zero.mpr ?_
    intro hzero
    exact absurd (Edit.eq_of_osa_eq_zero hzero) (by decide)

end StringAlgorithms

end Xkim
