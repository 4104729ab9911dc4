/-
MsgHandler/SideIndex.lean

A list with an index on the side.

`Indexes key xs m` says that the table `m` leads from the key of every element
of `xs` to a position of `xs` that holds an element with this key.  Appending
an element with a new key keeps the index right (`indexes_concat_iff`).
Removing elements does not move the positions that the table knows, so after a
removal the index is right exactly if every element that stays stood in front
of every element that goes (`indexes_filter_iff`).
-/
import Mathlib

namespace Xkim

variable {α κ : Type*} {key : α → κ} {xs : List α} {m m' : κ → Option ℕ} {keep : α → Bool}

/-- The table leads to the positions of the list. -/
structure Indexes (key : α → κ) (xs : List α) (m : κ → Option ℕ) : Prop where
  sound : ∀ k i, m k = some i → ∃ x, xs[i]? = some x ∧ key x = k
  complete : ∀ x ∈ xs, ∃ i, m (key x) = some i

theorem indexes_nil : Indexes key [] (fun _ => none) :=
  ⟨by simp, by simp⟩

/-- When no two elements share a key, the table knows the position of each. -/
theorem Indexes.position (h : Indexes key xs m) (hnd : (xs.map key).Nodup) {i : ℕ} {x : α}
    (hx : xs[i]? = some x) : m (key x) = some i := by
  obtain ⟨j, hj⟩ := h.complete x (List.mem_of_getElem? hx)
  obtain ⟨y, hy, hkey⟩ := h.sound _ _ hj
  have hi : (xs.map key)[i]? = some (key x) := by rw [List.getElem?_map, hx]; rfl
  have hj' : (xs.map key)[j]? = some (key x) := by rw [List.getElem?_map, hy, ← hkey]; rfl
  have hlt : i < (xs.map key).length := (List.getElem?_eq_some_iff.mp hi).1
  rw [hj, (List.getElem?_inj hlt hnd).mp (hi.trans hj'.symm)]

/-! ### Appending -/

/-- **An element with a new key**: the longer list is indexed if and only if the
shorter one was. -/
theorem indexes_concat_iff [DecidableEq κ] {x : α} (hnew : ∀ y ∈ xs, key y ≠ key x)
    (hm : m (key x) = none) :
    Indexes key (xs ++ [x]) (Function.update m (key x) (some xs.length)) ↔ Indexes key xs m := by
  constructor
  · intro h
    refine ⟨?_, ?_⟩
    · intro k i hi
      have hne : k ≠ key x := by
        rintro rfl
        rw [hm] at hi
        cases hi
      obtain ⟨y, hy, hkey⟩ := h.sound k i (by rw [Function.update_of_ne hne, hi])
      -- the position is not the new one, because the key is not
      rcases lt_or_ge i xs.length with hlt | hge
      · rw [List.getElem?_append_left hlt] at hy
        exact ⟨y, hy, hkey⟩
      · rw [List.getElem?_append_right hge] at hy
        obtain rfl := List.mem_singleton.mp (List.mem_of_getElem? hy)
        exact absurd hkey.symm hne
    · intro y hy
      obtain ⟨i, hi⟩ := h.complete y (List.mem_append_left _ hy)
      rw [Function.update_of_ne (hnew y hy)] at hi
      exact ⟨i, hi⟩
  · intro h
    refine ⟨?_, ?_⟩
    · intro k i hi
      rcases eq_or_ne k (key x) with rfl | hne
      · rw [Function.update_self] at hi
        obtain rfl := Option.some.inj hi
        exact ⟨x, List.getElem?_concat_length .., rfl⟩
      · rw [Function.update_of_ne hne] at hi
        obtain ⟨y, hy, hkey⟩ := h.sound k i hi
        exact ⟨y, by rw [List.getElem?_append_left (List.getElem?_eq_some_iff.mp hy).1, hy], hkey⟩
    · intro y hy
      rcases eq_or_ne (key y) (key x) with heq | hne
      · exact ⟨xs.length, by rw [heq, Function.update_self]⟩
      · rcases List.mem_append.mp hy with hy | hy
        · obtain ⟨i, hi⟩ := h.complete y hy
          exact ⟨i, by rw [Function.update_of_ne hne, hi]⟩
        · exact absurd (congrArg key (List.mem_singleton.mp hy)) hne

/-! ### Removing -/

/-- What stays stands in front of what goes. -/
def KeptFirst (keep : α → Bool) (xs : List α) : Prop :=
  xs.Pairwise fun a b => keep b = true → keep a = true

instance (keep : α → Bool) (xs : List α) : Decidable (KeptFirst keep xs) :=
  inferInstanceAs (Decidable (xs.Pairwise _))

/-- An element that stays keeps its position if the others that stay are in
front. -/
theorem KeptFirst.getElem?_filter (h : KeptFirst keep xs) {i : ℕ} {x : α} (hx : xs[i]? = some x)
    (hkeep : keep x = true) : (xs.filter keep)[i]? = some x := by
  induction xs generalizing i with
  | nil => cases hx
  | cons y ys ih =>
    obtain ⟨hhead, htail⟩ := List.pairwise_cons.mp h
    cases i with
    | zero =>
      obtain rfl := Option.some.inj hx
      rw [List.filter_cons_of_pos hkeep]
      rfl
    | succ i =>
      have hmem : x ∈ ys := List.mem_of_getElem? hx
      rw [List.filter_cons_of_pos (hhead x hmem hkeep), List.getElem?_cons_succ]
      exact ih htail hx

/-- What is left of a list moves to the front. -/
theorem getElem?_filter_le {i : ℕ} {x : α} (hx : (xs.filter keep)[i]? = some x) :
    ∃ j, i ≤ j ∧ xs[j]? = some x := by
  induction xs generalizing i with
  | nil => cases hx
  | cons y ys ih =>
    by_cases hy : keep y = true
    · rw [List.filter_cons_of_pos hy] at hx
      cases i with
      | zero => exact ⟨0, le_rfl, hx⟩
      | succ i =>
        obtain ⟨j, hj, hget⟩ := ih hx
        exact ⟨j + 1, Nat.succ_le_succ hj, hget⟩
    · rw [List.filter_cons_of_neg hy] at hx
      obtain ⟨j, hj, hget⟩ := ih hx
      exact ⟨j + 1, hj.trans (Nat.le_succ j), hget⟩

/-- If every element that stays keeps its position, then none stands behind an
element that goes. -/
theorem keptFirst_of_getElem? (hnd : xs.Nodup)
    (h : ∀ (i : ℕ) x, xs[i]? = some x → keep x = true → (xs.filter keep)[i]? = some x) :
    KeptFirst keep xs := by
  induction xs with
  | nil => exact List.Pairwise.nil
  | cons y ys ih =>
    obtain ⟨-, hys⟩ := List.nodup_cons.mp hnd
    by_cases hy : keep y = true
    · refine List.pairwise_cons.mpr ⟨fun _ _ _ => hy, ih hys ?_⟩
      intro i x hx hkeep
      have := h (i + 1) x hx hkeep
      rwa [List.filter_cons_of_pos hy] at this
    · -- an element that stays would have to be found one place too far back
      have hnone : ∀ x ∈ ys, keep x ≠ true := by
        intro x hx hkeep
        obtain ⟨i, hi⟩ := List.mem_iff_getElem?.mp hx
        have hshift := h (i + 1) x hi hkeep
        rw [List.filter_cons_of_neg hy] at hshift
        obtain ⟨j, hj, hget⟩ := getElem?_filter_le hshift
        have hlt : i < ys.length := (List.getElem?_eq_some_iff.mp hi).1
        have := (List.getElem?_inj hlt hys).mp (hi.trans hget.symm)
        omega
      refine List.pairwise_cons.mpr ⟨fun x hx hkeep => absurd hkeep (hnone x hx), ?_⟩
      rw [List.pairwise_iff_forall_sublist]
      intro a b hab hb
      exact absurd hb (hnone b (hab.subset (by simp)))

/-- The table after the keys of the elements that go were taken out. -/
structure Forgets {ι : Type*} (key : α → κ) (keep : α → Bool) (xs : List α)
    (m m' : κ → Option ι) : Prop where
  gone : ∀ x ∈ xs, keep x ≠ true → m' (key x) = none
  rest : ∀ k, (∀ x ∈ xs, keep x ≠ true → key x ≠ k) → m' k = m k

section Forgets

variable {ι ι' : Type*} {t t' : κ → Option ι} {x : α}

theorem Forgets.nil : Forgets key keep [] t t := ⟨by simp, by simp⟩

theorem Forgets.kept (hx : keep x = true) (hf : Forgets key keep xs t t') :
    Forgets key keep (x :: xs) t t' := by
  refine ⟨?_, ?_⟩
  · intro y hy hgone
    rcases List.mem_cons.mp hy with rfl | hy
    · exact absurd hx hgone
    · exact hf.gone y hy hgone
  · intro k hk
    exact hf.rest k fun y hy => hk y (List.mem_cons_of_mem _ hy)

theorem Forgets.gone_cons [DecidableEq κ] (hx : keep x ≠ true)
    (hf : Forgets key keep xs (Function.update t (key x) none) t') :
    Forgets key keep (x :: xs) t t' := by
  refine ⟨?_, ?_⟩
  · intro y hy hgone
    rcases List.mem_cons.mp hy with rfl | hy
    · by_cases hlater : ∃ z ∈ xs, keep z ≠ true ∧ key z = key y
      · obtain ⟨z, hz, hzgone, hkey⟩ := hlater
        rw [← hkey]
        exact hf.gone z hz hzgone
      · rw [hf.rest, Function.update_self]
        exact fun z hz hzgone hkey => hlater ⟨z, hz, hzgone, hkey⟩
    · exact hf.gone y hy hgone
  · intro k hk
    rw [hf.rest k fun y hy => hk y (List.mem_cons_of_mem _ hy)]
    exact Function.update_of_ne (hk x List.mem_cons_self hx).symm ..

/-- The same for what the entries of the table stand for. -/
theorem Forgets.map (hf : Forgets key keep xs t t') (f : ι → ι') :
    Forgets key keep xs (fun k => (t k).map f) (fun k => (t' k).map f) := by
  refine ⟨?_, ?_⟩
  · intro y hy hgone
    rw [hf.gone y hy hgone]
    rfl
  · intro k hk
    rw [hf.rest k hk]

/-- What the table still knows, it knew before, and it is of an element that
stays. -/
theorem Forgets.of_ne_none (hf : Forgets key keep xs t t') {k : κ} (hk : t' k ≠ none) :
    t' k = t k ∧ ∀ x ∈ xs, key x = k → keep x = true := by
  have hstay : ∀ x ∈ xs, key x = k → keep x = true := by
    rintro x hx rfl
    by_contra hkeep
    exact hk (hf.gone x hx hkeep)
  exact ⟨hf.rest k fun x hx hkeep hkey => hkeep (hstay x hx hkey), hstay⟩

end Forgets

/-- **Elements are removed**: the table is right for what is left if and only if
nothing that stays stood behind something that goes. -/
theorem indexes_filter_iff (h : Indexes key xs m) (hnd : (xs.map key).Nodup)
    (hf : Forgets key keep xs m m') :
    Indexes key (xs.filter keep) m' ↔ KeptFirst keep xs := by
  have hkept : ∀ x ∈ xs, keep x = true → m' (key x) = m (key x) := by
    intro x hx hkeep
    refine hf.rest _ fun y hy hgone hkey => hgone ?_
    rwa [List.inj_on_of_nodup_map hnd hy hx hkey]
  constructor
  · intro h'
    refine keptFirst_of_getElem? (List.Nodup.of_map key hnd) ?_
    intro i x hx hkeep
    have hmem := List.mem_of_getElem? hx
    obtain ⟨y, hy, hkey⟩ := h'.sound (key x) i (by rw [hkept x hmem hkeep, h.position hnd hx])
    have hy' : y ∈ xs := (List.mem_filter.mp (List.mem_of_getElem? hy)).1
    rwa [← List.inj_on_of_nodup_map hnd hy' hmem hkey]
  · intro hfirst
    refine ⟨?_, ?_⟩
    · intro k i hi
      obtain ⟨hsame, hstay⟩ := hf.of_ne_none (k := k) (by rw [hi]; simp)
      obtain ⟨x, hx, hkey⟩ := h.sound k i (hsame ▸ hi)
      exact ⟨x, hfirst.getElem?_filter hx (hstay x (List.mem_of_getElem? hx) hkey), hkey⟩
    · intro x hx
      obtain ⟨hmem, hkeep⟩ := List.mem_filter.mp hx
      obtain ⟨i, hi⟩ := h.complete x hmem
      exact ⟨i, by rw [hkept x hmem hkeep, hi]⟩

end Xkim
