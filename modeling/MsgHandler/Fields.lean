/-
MsgHandler/Fields.lean

The fields of a list between the occurrences of a delimiter, which is a
non-empty list itself.

The list is scanned from the left.  Where the delimiter begins, a field ends,
and the scan goes on behind the delimiter, so that two occurrences that
overlap count as one.  Empty fields are kept.  A list has one field more than
delimiters, and joined again the fields are the list (`intercalate_fields`).

`fields_rec` is the induction rule that goes with the scan: there is no
delimiter, or there is a first one and the fields of what follows it.
-/
import Mathlib

namespace Xkim

variable {α : Type*} [DecidableEq α] (delim : List α)

/-- The fields of a list, where `t` has been read since the last delimiter and
`k` more elements belong to that delimiter. -/
def fieldsFrom : ℕ → List α → List α → List (List α)
  | _, t, [] => [t]
  | k + 1, t, _ :: s => fieldsFrom k t s
  | 0, t, c :: s =>
    if delim <+: c :: s then t :: fieldsFrom (delim.length - 1) [] s
    else fieldsFrom 0 (t ++ [c]) s

/-- The fields of a list. -/
def fields (s : List α) : List (List α) := fieldsFrom delim 0 [] s

variable {delim} {s t u v : List α}

theorem fieldsFrom_drop (k : ℕ) (t s : List α) :
    fieldsFrom delim k t s = fieldsFrom delim 0 t (s.drop k) := by
  induction k generalizing s with
  | zero => rfl
  | succ k ih =>
    cases s with
    | nil => rfl
    | cons c s => exact ih s

/-- A list without the delimiter is one field. -/
theorem fieldsFrom_of_free (h : ∀ k < s.length, ¬ delim <+: s.drop k) (t : List α) :
    fieldsFrom delim 0 t s = [t ++ s] := by
  induction s generalizing t with
  | nil => rw [List.append_nil, fieldsFrom]
  | cons c s ih =>
    have hc : ¬ delim <+: c :: s := h 0 (Nat.zero_lt_succ _)
    rw [fieldsFrom, if_neg hc, ih (fun k hk => h (k + 1) (Nat.succ_lt_succ hk)),
      List.append_assoc, List.singleton_append]

/-- The first delimiter ends a field. -/
theorem fieldsFrom_of_first (hdelim : delim ≠ [])
    (h : ∀ k < u.length, ¬ delim <+: (u ++ (delim ++ v)).drop k) (t : List α) :
    fieldsFrom delim 0 t (u ++ (delim ++ v)) = (t ++ u) :: fields delim v := by
  induction u generalizing t with
  | nil =>
    obtain ⟨d, ds, rfl⟩ := List.exists_cons_of_ne_nil hdelim
    have hpre : d :: ds <+: d :: (ds ++ v) := List.prefix_append (d :: ds) v
    rw [List.nil_append, List.cons_append, fieldsFrom, if_pos hpre, fieldsFrom_drop,
      List.append_nil, List.length_cons, Nat.add_sub_cancel, List.drop_left, fields]
  | cons c u ih =>
    have hc : ¬ delim <+: c :: (u ++ (delim ++ v)) := h 0 (Nat.zero_lt_succ _)
    rw [List.cons_append, fieldsFrom, if_neg hc,
      ih (fun k hk => h (k + 1) (Nat.succ_lt_succ hk)), List.append_assoc, List.singleton_append]

/-- **Induction along the scan.** -/
theorem fields_rec (hdelim : delim ≠ []) {P : List α → List (List α) → Prop}
    (last : ∀ s, (∀ k < s.length, ¬ delim <+: s.drop k) → P s [s])
    (more : ∀ u v, (∀ k < u.length, ¬ delim <+: (u ++ (delim ++ v)).drop k) →
      P v (fields delim v) → P (u ++ (delim ++ v)) (u :: fields delim v)) (s : List α) :
    P s (fields delim s) := by
  induction hn : s.length using Nat.strong_induction_on generalizing s with
  | h n ih =>
    by_cases hfree : ∀ k < s.length, ¬ delim <+: s.drop k
    · rw [fields, fieldsFrom_of_free hfree, List.nil_append]
      exact last s hfree
    · -- the first place where the delimiter begins
      push Not at hfree
      obtain ⟨hk, v, hv⟩ := Nat.find_spec hfree
      have hbefore : ∀ k < Nat.find hfree, ¬ delim <+: s.drop k := by
        intro k hlt hpre
        exact Nat.find_min hfree hlt ⟨hlt.trans hk, hpre⟩
      generalize Nat.find hfree = k at hk hv hbefore
      have hlen : (s.take k).length = k := List.length_take_of_le hk.le
      have hs : s = s.take k ++ (delim ++ v) := by rw [hv, List.take_append_drop]
      have hfirst : ∀ i < (s.take k).length, ¬ delim <+: (s.take k ++ (delim ++ v)).drop i := by
        rw [hlen, ← hs]
        exact hbefore
      have hpos : 0 < delim.length := List.length_pos_iff.mpr hdelim
      have hshort : v.length < n := by
        have hsum := congrArg List.length hs
        simp only [List.length_append] at hsum
        omega
      have hrest := more (s.take k) v hfirst (ih v.length hshort v rfl)
      rw [← List.nil_append (s.take k), ← fieldsFrom_of_first hdelim hfirst, List.nil_append,
        ← hs] at hrest
      exact hrest

theorem fields_ne_nil (hdelim : delim ≠ []) (s : List α) : fields delim s ≠ [] :=
  fields_rec hdelim (P := fun _ fs => fs ≠ []) (fun s _ => List.cons_ne_nil s [])
    (fun u _ _ _ => List.cons_ne_nil u _) s

/-- **Joined again**, the fields are the list. -/
theorem intercalate_fields (hdelim : delim ≠ []) (s : List α) :
    delim.intercalate (fields delim s) = s := by
  refine fields_rec hdelim (P := fun s fs => delim.intercalate fs = s) ?_ ?_ s
  · intro s _
    exact List.intercalate_singleton
  · intro u v _ ih
    rw [List.intercalate_cons_of_ne_nil (fields_ne_nil hdelim v), ih, List.append_assoc]

/-- A list whose last field is empty ends with the delimiter. -/
theorem suffix_of_last_nil (hdelim : delim ≠ []) (hs : s ≠ [])
    (h : (fields delim s).getLast? = some []) : delim <:+ s := by
  refine fields_rec hdelim
    (P := fun s fs => s ≠ [] → fs.getLast? = some [] → delim <:+ s) ?_ ?_ s hs h
  · intro s _ hne hlast
    exact absurd (Option.some.inj hlast) hne
  · intro u v _ ih _ hlast
    rw [List.getLast?_cons_of_ne_nil (fields_ne_nil hdelim v)] at hlast
    rcases eq_or_ne v [] with rfl | hv
    · exact ⟨u, by rw [List.append_nil]⟩
    · exact ((ih hv hlast).trans (List.suffix_append delim v)).trans (List.suffix_append u _)

theorem subset_of_mem_fields (hdelim : delim ≠ []) (hu : u ∈ fields delim s) : u ⊆ s := by
  refine fields_rec hdelim (P := fun s fs => ∀ u ∈ fs, u ⊆ s) ?_ ?_ s u hu
  · intro s _ u hu
    rw [List.mem_singleton.mp hu]
    exact List.Subset.refl s
  · intro v w _ ih u hu
    rcases List.mem_cons.mp hu with rfl | hu
    · exact List.subset_append_left u _
    · intro c hc
      exact List.mem_append_right v (List.mem_append_right delim (ih u hu hc))

/-- **Lists without the delimiter**, joined by it, are the fields again. -/
theorem fields_intercalate {d : α} {us : List (List α)} (hus : us ≠ []) (hd : ∀ u ∈ us, d ∉ u) :
    fields [d] ([d].intercalate us) = us := by
  -- a delimiter that is found in `u` would be an element of it
  have hfree : ∀ u v : List α, d ∉ u → ∀ k < u.length, ¬ [d] <+: (u ++ v).drop k := by
    intro u v hu k hk hpre
    rw [List.drop_append_of_le_length hk.le, List.drop_eq_getElem_cons hk, List.cons_append,
      List.cons_prefix_cons] at hpre
    refine hu ?_
    rw [hpre.1]
    exact List.getElem_mem hk
  induction us with
  | nil => exact absurd rfl hus
  | cons u us ih =>
    rw [List.forall_mem_cons] at hd
    by_cases hnil : us = []
    · subst hnil
      have hlast := hfree u [] hd.1
      rw [List.append_nil] at hlast
      rw [List.intercalate_singleton, fields, fieldsFrom_of_free hlast, List.nil_append]
    · rw [List.intercalate_cons_of_ne_nil hnil, List.append_assoc, fields,
        fieldsFrom_of_first (List.cons_ne_nil d []) (hfree u _ hd.1), List.nil_append,
        ih hnil hd.2]

end Xkim
