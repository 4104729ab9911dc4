/-
MsgHandler/Subsequence.lean

Common subsequences of two lists.

`commonLengths s t` is the set of the lengths of the lists that are
subsequences of both `s` and `t`.  How its greatest element changes when an
element is appended to each of the lists is the recurrence of dynamic
programming: if the new elements are the same, a longest common subsequence
may be assumed to end with it (`isGreatest_concat_self`), and if they are not,
one of the two is of no use (`isGreatest_concat_ne`).
-/
import Mathlib

namespace Xkim

variable {α : Type*}

/-- The lengths of the common subsequences. -/
def commonLengths (s t : List α) : Set ℕ :=
  {n | ∃ u : List α, u.Sublist s ∧ u.Sublist t ∧ u.length = n}

variable {s t u : List α} {a b : α} {n k : ℕ}

theorem mem_commonLengths (hs : u.Sublist s) (ht : u.Sublist t) :
    u.length ∈ commonLengths s t :=
  ⟨u, hs, ht, rfl⟩

/-- A subsequence of a longer list uses its last element or it does not. -/
theorem sublist_concat_iff :
    u.Sublist (s ++ [a]) ↔ u.Sublist s ∨ ∃ v, u = v ++ [a] ∧ v.Sublist s := by
  rw [List.sublist_append_iff]
  constructor
  · rintro ⟨v, w, rfl, hv, hw⟩
    rcases List.sublist_singleton.mp hw with rfl | rfl
    · rw [List.append_nil]
      exact Or.inl hv
    · exact Or.inr ⟨v, rfl, hv⟩
  · rintro (hu | ⟨v, rfl, hv⟩)
    · exact ⟨u, [], (List.append_nil u).symm, hu, List.nil_sublist _⟩
    · exact ⟨v, [a], rfl, hv, List.Sublist.refl _⟩

theorem isGreatest_nil_left (t : List α) : IsGreatest (commonLengths [] t) 0 := by
  refine ⟨mem_commonLengths (List.Sublist.refl []) (List.nil_sublist t), ?_⟩
  rintro n ⟨u, hu, -, rfl⟩
  rw [List.sublist_nil.mp hu]
  exact le_refl 0

theorem isGreatest_nil_right (s : List α) : IsGreatest (commonLengths s []) 0 := by
  refine ⟨mem_commonLengths (List.nil_sublist s) (List.Sublist.refl []), ?_⟩
  rintro n ⟨u, -, hu, rfl⟩
  rw [List.sublist_nil.mp hu]
  exact le_refl 0

/-- **The same last element**: it is worth taking. -/
theorem isGreatest_concat_self (h : IsGreatest (commonLengths s t) n) (a : α) :
    IsGreatest (commonLengths (s ++ [a]) (t ++ [a])) (n + 1) := by
  obtain ⟨⟨u, hus, hut, rfl⟩, hmax⟩ := h
  refine ⟨⟨u ++ [a], hus.append_right [a], hut.append_right [a], List.length_append⟩, ?_⟩
  rintro k ⟨w, hws, hwt, rfl⟩
  -- without its last element, `w` is a subsequence of both shorter lists
  have hdrop : w.dropLast.Sublist s ∧ w.dropLast.Sublist t := by
    have hshort : ∀ l : List α, w.Sublist (l ++ [a]) → w.dropLast.Sublist l := by
      intro l hl
      rcases sublist_concat_iff.mp hl with hw | ⟨v, rfl, hv⟩
      · exact w.dropLast_sublist.trans hw
      · rw [List.dropLast_concat]
        exact hv
    exact ⟨hshort s hws, hshort t hwt⟩
  have hle := hmax (mem_commonLengths hdrop.1 hdrop.2)
  rw [List.length_dropLast] at hle
  omega

/-- **Different last elements**: one of them is not taken. -/
theorem isGreatest_concat_ne (hab : a ≠ b) (hs : IsGreatest (commonLengths s (t ++ [b])) n)
    (ht : IsGreatest (commonLengths (s ++ [a]) t) k) :
    IsGreatest (commonLengths (s ++ [a]) (t ++ [b])) (max n k) := by
  refine ⟨?_, ?_⟩
  · rcases max_choice n k with heq | heq
    · obtain ⟨u, hus, hut, hlen⟩ := hs.1
      rw [heq]
      exact ⟨u, hus.trans (List.sublist_append_left s [a]), hut, hlen⟩
    · obtain ⟨u, hus, hut, hlen⟩ := ht.1
      rw [heq]
      exact ⟨u, hus, hut.trans (List.sublist_append_left t [b]), hlen⟩
  · rintro l ⟨w, hws, hwt, rfl⟩
    rcases sublist_concat_iff.mp hws with hw | ⟨v, rfl, hv⟩
    · exact (hs.2 (mem_commonLengths hw hwt)).trans (le_max_left n k)
    · rcases sublist_concat_iff.mp hwt with hw | ⟨v', hv', -⟩
      · exact (ht.2 (mem_commonLengths hws hw)).trans (le_max_right n k)
      · exact absurd (List.append_inj_right' hv' rfl) (by simpa using hab)

end Xkim
