/-
MsgHandler/Lcss.lean

`StringAlgorithms::LCSS` (`framework/lib/string_algorithms.cpp`): the length of
a longest common subsequence.

The function fills a matrix `m`, where `m[i][j]` is the greatest length of a
common subsequence of the first `i` characters of one string and the first `j`
of the other:

    m[i][j] = m[i-1][j-1] + 1                   if the last characters agree
            = max(m[i-1][j], m[i][j-1])         if they do not.

So the result is exact for the strings that the template is given
(`lcssImpl_isGreatest`).  The overloads for `std::string` and `std::wstring`
pass `c_str()` on, and so they compare the parts before the first NUL.
-/
import MsgHandler.EditDistance
import MsgHandler.Subsequence

namespace Xkim

namespace StringAlgorithms

variable {T : Type*} [DecidableEq T]

/-- What is written to `m[i][j]`, for `i` and `j` from 1 on. -/
def lcssCell (s t : List T) (m : ℕ → ℕ → ℕ) (i j : ℕ) : ℕ :=
  if s[i - 1]? = t[j - 1]? then m (i - 1) (j - 1) + 1 else max (m (i - 1) j) (m i (j - 1))

/-- The matrix of `_LCSS<T>` after its loops; `m` is not initialised. -/
def lcssTable (m : ℕ → ℕ → ℕ) (s t : List T) : ℕ → ℕ → ℕ :=
  Table.fill (lcssCell s t) s.length t.length
    (Table.row (fun _ => 0) t.length (Table.column (fun _ => 0) s.length m))

/-- `_LCSS<T>(tstr1, tstr1len, tstr2, tstr2len)`. -/
def lcssImpl (m : ℕ → ℕ → ℕ) (s t : List T) : ℕ := lcssTable m s t s.length t.length

/-- `LCSS(str1, str2)`. -/
def lcss (nul : T) (m : ℕ → ℕ → ℕ) (s t : List T) : ℕ :=
  lcssImpl m (cStr nul s) (cStr nul t)

/-! ### The recurrence -/

variable {s t : List T} {m : ℕ → ℕ → ℕ} {i j : ℕ}

theorem causal_lcssCell (s t : List T) : Table.Causal (lcssCell s t) := by
  intro m m' i j hbefore
  have hup : m' i (j + 1) = m i (j + 1) := hbefore _ _ (by omega)
  have hleft : m' (i + 1) j = m (i + 1) j := hbefore _ _ (by omega)
  have hdiag : m' i j = m i j := hbefore _ _ (by omega)
  simp only [lcssCell, Nat.add_sub_cancel, hup, hleft, hdiag]

theorem lcssTable_solved (m : ℕ → ℕ → ℕ) (s t : List T) :
    Table.Solved (lcssCell s t)
      (Table.row (fun _ => 0) t.length (Table.column (fun _ => 0) s.length m))
      (lcssTable m s t) t.length s.length 0 :=
  Table.solved_fill (causal_lcssCell s t) s.length t.length _

theorem lcssTable_column (hi : i ≤ s.length) : lcssTable m s t i 0 = 0 := by
  rw [(lcssTable_solved m s t).column, Table.row_apply, Table.column_apply]
  simp [hi]

theorem lcssTable_row (hj : j ≤ t.length) : lcssTable m s t 0 j = 0 := by
  rw [(lcssTable_solved m s t).row, Table.row_apply, if_pos ⟨rfl, hj⟩]

theorem lcssTable_succ (hi : i < s.length) (hj : j < t.length) :
    lcssTable m s t (i + 1) (j + 1) =
      if s[i]? = t[j]? then lcssTable m s t i j + 1
      else max (lcssTable m s t i (j + 1)) (lcssTable m s t (i + 1) j) :=
  (lcssTable_solved m s t).cells i j hj (Or.inl hi)

/-! ### Optimality -/

/-- Every cell is the greatest length for the beginnings of the strings. -/
theorem lcssTable_isGreatest (hi : i ≤ s.length) (hj : j ≤ t.length) :
    IsGreatest (commonLengths (s.take i) (t.take j)) (lcssTable m s t i j) := by
  induction i generalizing j with
  | zero =>
    rw [lcssTable_row hj, List.take_zero]
    exact isGreatest_nil_left _
  | succ i ihi =>
    induction j with
    | zero =>
      rw [lcssTable_column hi, List.take_zero]
      exact isGreatest_nil_right _
    | succ j ihj =>
      have hup := ihi (Nat.le_of_succ_le hi) hj
      have hleft := ihj (Nat.le_of_succ_le hj)
      have hdiag := ihi (Nat.le_of_succ_le hi) (Nat.le_of_succ_le hj)
      have hs : s[i]? = some s[i] := List.getElem?_eq_getElem hi
      have ht : t[j]? = some t[j] := List.getElem?_eq_getElem hj
      rw [take_succ_of_getElem? hs] at hleft ⊢
      rw [take_succ_of_getElem? ht] at hup ⊢
      rw [lcssTable_succ hi hj, hs, ht]
      split_ifs with heq
      · rw [Option.some.inj heq]
        exact isGreatest_concat_self hdiag _
      · exact isGreatest_concat_ne (fun h => heq (congrArg some h)) hup hleft

/-- **The template is exact**: its result is the length of a common
subsequence, and no other one is longer. -/
theorem lcssImpl_isGreatest (m : ℕ → ℕ → ℕ) (s t : List T) :
    IsGreatest (commonLengths s t) (lcssImpl m s t) := by
  have h := lcssTable_isGreatest (m := m) (le_refl s.length) (le_refl t.length)
  rwa [List.take_length, List.take_length] at h

/-! ### Strings with a NUL -/

/-- What follows a NUL does not make a longer common subsequence. -/
def NulHarmless (nul : T) (s t : List T) : Prop :=
  ∀ n ∈ commonLengths s t, ∃ k ∈ commonLengths (cStr nul s) (cStr nul t), n ≤ k

theorem nulHarmless_of_not_mem {nul : T} (hs : nul ∉ s) (ht : nul ∉ t) :
    NulHarmless nul s t := by
  intro n hn
  rw [cStr_of_not_mem hs, cStr_of_not_mem ht]
  exact ⟨n, hn, le_refl n⟩

theorem cStr_sublist (nul : T) (s : List T) : (cStr nul s).Sublist s :=
  (List.takeWhile_prefix _).sublist

/-- **When `LCSS` is the length of a longest common subsequence**, for all
strings of any kind of character.  Strings without NUL are among them
(`nulHarmless_of_not_mem`). -/
theorem lcss_isGreatest_iff (nul : T) (m : ℕ → ℕ → ℕ) (s t : List T) :
    IsGreatest (commonLengths s t) (lcss nul m s t) ↔ NulHarmless nul s t := by
  obtain ⟨⟨u, hus, hut, hlen⟩, hmax⟩ := lcssImpl_isGreatest m (cStr nul s) (cStr nul t)
  constructor
  · intro h n hn
    exact ⟨lcss nul m s t, ⟨u, hus, hut, hlen⟩, h.2 hn⟩
  · intro h
    refine ⟨⟨u, hus.trans (cStr_sublist nul s), hut.trans (cStr_sublist nul t), hlen⟩, ?_⟩
    intro n hn
    obtain ⟨k, hk, hle⟩ := h n hn
    exact hle.trans (hmax hk)

/-- Two strings of one NUL have it in common, and the result is 0. -/
theorem lcss_nul_nul :
    lcss (0 : UInt8) (fun _ _ => 0) [0] [0] = 0 ∧
      IsGreatest (commonLengths ([0] : List UInt8) [0]) 1 := by
  refine ⟨by decide, ?_⟩
  have h := isGreatest_concat_self (isGreatest_nil_left ([] : List UInt8)) 0
  exact h

end StringAlgorithms

end Xkim
