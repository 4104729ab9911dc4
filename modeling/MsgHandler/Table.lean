/-
MsgHandler/Table.lean

Tables filled by loops, as dynamic programming does:

    for (i = 0; i <= n; ++i) m[i][0] = g(i);
    for (j = 0; j <= k; ++j) m[0][j] = g(j);
    for (i = 1; i <= n; ++i)
        for (j = 1; j <= k; ++j)
            m[i][j] = f(m, i, j);

A table is a function of its two indices.  If `f` reads only cells that come
before the one it computes, row by row (`Causal`), then every cell that the
nested loops have written is `f` of the table as they leave it, and the first
row and column are as they were (`solved_fill`).  So a table is reasoned about
through its recurrence, and not through the loops.
-/
import Mathlib

namespace Xkim

namespace Table

variable {β : Type*}

/-- `m[i][j] = v`. -/
def write (m : ℕ → ℕ → β) (i j : ℕ) (v : β) : ℕ → ℕ → β :=
  fun i' j' => if i' = i ∧ j' = j then v else m i' j'

variable {m m' : ℕ → ℕ → β} {i j : ℕ} {v : β}

theorem write_self : write m i j v i j = v := if_pos ⟨rfl, rfl⟩

theorem write_of_ne {i' j' : ℕ} (h : ¬ (i' = i ∧ j' = j)) : write m i j v i' j' = m i' j' :=
  if_neg h

/-! ### The first column and the first row -/

/-- The loop over the first column. -/
def column (g : ℕ → β) (n : ℕ) (m : ℕ → ℕ → β) : ℕ → ℕ → β :=
  (List.range (n + 1)).foldl (fun m i => write m i 0 (g i)) m

/-- The loop over the first row. -/
def row (g : ℕ → β) (n : ℕ) (m : ℕ → ℕ → β) : ℕ → ℕ → β :=
  (List.range (n + 1)).foldl (fun m j => write m 0 j (g j)) m

/-- A loop that writes the cells `place 0`, `place 1` and so on. -/
theorem foldl_write (g : ℕ → β) (place : ℕ → ℕ × ℕ) (hplace : Function.Injective place)
    (m : ℕ → ℕ → β) (n : ℕ) :
    (∀ k < n, (List.range n).foldl (fun m k => write m (place k).1 (place k).2 (g k)) m
      (place k).1 (place k).2 = g k) ∧
    (∀ i j, (∀ k < n, place k ≠ (i, j)) →
      (List.range n).foldl (fun m k => write m (place k).1 (place k).2 (g k)) m i j = m i j) := by
  induction n with
  | zero => exact ⟨fun k hk => absurd hk (Nat.not_lt_zero k), fun _ _ _ => rfl⟩
  | succ n ih =>
    obtain ⟨hin, hout⟩ := ih
    simp only [List.range_succ, List.foldl_append, List.foldl_cons, List.foldl_nil]
    refine ⟨?_, ?_⟩
    · intro k hk
      rcases Nat.lt_succ_iff_lt_or_eq.mp hk with hlt | rfl
      · rw [write_of_ne]
        · exact hin k hlt
        · rintro ⟨hi, hj⟩
          exact hlt.ne (hplace (Prod.ext hi hj))
      · exact write_self
    · intro i j hne
      rw [write_of_ne]
      · exact hout i j fun k hk => hne k (Nat.lt_succ_of_lt hk)
      · rintro ⟨rfl, rfl⟩
        exact hne n (Nat.lt_succ_self n) rfl

theorem column_apply (g : ℕ → β) (n : ℕ) (m : ℕ → ℕ → β) (i j : ℕ) :
    column g n m i j = if i ≤ n ∧ j = 0 then g i else m i j := by
  obtain ⟨hin, hout⟩ := foldl_write g (fun k => (k, 0))
    (fun a b hab => (Prod.ext_iff.mp hab).1) m (n + 1)
  split_ifs with h
  · obtain ⟨hi, rfl⟩ := h
    exact hin i (Nat.lt_succ_of_le hi)
  · refine hout i j ?_
    intro k hk heq
    obtain ⟨rfl, rfl⟩ := Prod.ext_iff.mp heq
    exact h ⟨Nat.le_of_lt_succ hk, rfl⟩

theorem row_apply (g : ℕ → β) (n : ℕ) (m : ℕ → ℕ → β) (i j : ℕ) :
    row g n m i j = if i = 0 ∧ j ≤ n then g j else m i j := by
  obtain ⟨hin, hout⟩ := foldl_write g (fun k => (0, k))
    (fun a b hab => (Prod.ext_iff.mp hab).2) m (n + 1)
  split_ifs with h
  · obtain ⟨rfl, hj⟩ := h
    exact hin j (Nat.lt_succ_of_le hj)
  · refine hout i j ?_
    intro k hk heq
    obtain ⟨rfl, rfl⟩ := Prod.ext_iff.mp heq
    exact h ⟨rfl, Nat.le_of_lt_succ hk⟩

/-! ### The nested loops -/

variable (f : (ℕ → ℕ → β) → ℕ → ℕ → β)

/-- The inner loop, for the row `i`. -/
def fillRow (i k : ℕ) (m : ℕ → ℕ → β) : ℕ → ℕ → β :=
  (List.range k).foldl (fun m j => write m i (j + 1) (f m i (j + 1))) m

/-- The nested loops. -/
def fill (n k : ℕ) (m : ℕ → ℕ → β) : ℕ → ℕ → β :=
  (List.range n).foldl (fun m i => fillRow f (i + 1) k m) m

/-- A cell depends on those before it only. -/
def Causal : Prop :=
  ∀ m m' : ℕ → ℕ → β, ∀ i j, (∀ i' j', i' < i + 1 ∨ i' = i + 1 ∧ j' < j + 1 → m' i' j' = m i' j') →
    f m' (i + 1) (j + 1) = f m (i + 1) (j + 1)

/-- The border is that of `m₀`, and the recurrence holds in the first `i` rows
and in the first `j` columns of the next one; there are `k` columns. -/
structure Solved (m₀ m : ℕ → ℕ → β) (k i j : ℕ) : Prop where
  column : ∀ i', m i' 0 = m₀ i' 0
  row : ∀ j', m 0 j' = m₀ 0 j'
  cells : ∀ i' j', j' < k → i' < i ∨ i' = i ∧ j' < j → m (i' + 1) (j' + 1) = f m (i' + 1) (j' + 1)

variable {f} {m₀ : ℕ → ℕ → β} {k : ℕ}

/-- One turn of the inner loop. -/
theorem Solved.step (hf : Causal f) (h : Solved f m₀ m k i j) :
    Solved f m₀ (write m (i + 1) (j + 1) (f m (i + 1) (j + 1))) k i (j + 1) := by
  refine ⟨?_, ?_, ?_⟩
  · intro i'
    rw [write_of_ne (by omega)]
    exact h.column i'
  · intro j'
    rw [write_of_ne (by omega)]
    exact h.row j'
  · intro i' j' hj' hbefore
    -- the new value is not read for itself nor for what comes before it
    have hread : f (write m (i + 1) (j + 1) (f m (i + 1) (j + 1))) (i' + 1) (j' + 1) =
        f m (i' + 1) (j' + 1) :=
      hf _ _ i' j' fun a b hab => write_of_ne (by omega)
    rw [hread]
    by_cases hcell : i' = i ∧ j' = j
    · obtain ⟨rfl, rfl⟩ := hcell
      exact write_self
    · rw [write_of_ne (by omega)]
      exact h.cells i' j' hj' (by omega)

theorem Solved.fillRow (hf : Causal f) (h : Solved f m₀ m k i 0) (n : ℕ) :
    Solved f m₀ (Table.fillRow f (i + 1) n m) k i n := by
  unfold Table.fillRow
  induction n with
  | zero => exact h
  | succ n ih =>
    rw [List.range_succ, List.foldl_append, List.foldl_cons, List.foldl_nil]
    exact ih.step hf

/-- **The nested loops solve the recurrence.** -/
theorem solved_fill (hf : Causal f) (n k : ℕ) (m : ℕ → ℕ → β) :
    Solved f m (fill f n k m) k n 0 := by
  unfold fill
  induction n with
  | zero => exact ⟨fun _ => rfl, fun _ => rfl, fun i j _ h => by omega⟩
  | succ n ih =>
    rw [List.range_succ, List.foldl_append, List.foldl_cons, List.foldl_nil]
    have hrow := ih.fillRow hf k
    refine ⟨hrow.column, hrow.row, ?_⟩
    intro i j hj hbefore
    exact hrow.cells i j hj (by omega)

end Table

end Xkim
