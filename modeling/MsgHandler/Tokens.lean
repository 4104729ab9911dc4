/-
MsgHandler/Tokens.lean

Cutting a list at a separator, over an arbitrary alphabet.

`tokens sep s` is the list of the non-empty pieces between separators, and
`joined sep ts` writes a separator in front of each piece.  A list that is cut
and joined again has lost its repeated and its trailing separators, so it is
the same as before exactly if it has none of them: if no two separators stand
side by side in the list between two more (`joined_tokens_eq_iff`).
-/
import Mathlib

namespace Xkim

variable {α : Type*}

/-! ### Two cuts of one list -/

/-- A list that is cut at a separator in two ways: it is the same cut, or the first
part of one goes beyond the separator of the other. -/
theorem append_cons_cases {sep : α} {a b c d : List α} (h : a ++ sep :: b = c ++ sep :: d) :
    (a = c ∧ b = d) ∨ (∃ e, c = a ++ sep :: e ∧ b = e ++ sep :: d) ∨
      ∃ e, a = c ++ sep :: e ∧ d = e ++ sep :: b := by
  rcases List.append_eq_append_iff.mp h with ⟨e, rfl, he⟩ | ⟨e, rfl, he⟩
  · rcases e with - | ⟨x, e⟩
    · exact .inl ⟨(List.append_nil a).symm, (List.cons.inj he).2⟩
    · obtain ⟨rfl, rfl⟩ := List.cons.inj he
      exact .inr (.inl ⟨e, rfl, rfl⟩)
  · rcases e with - | ⟨x, e⟩
    · exact .inl ⟨List.append_nil c, (List.cons.inj he).2.symm⟩
    · obtain ⟨rfl, rfl⟩ := List.cons.inj he
      exact .inr (.inr ⟨e, rfl, rfl⟩)

/-! ### Separators side by side -/

section Infix

variable {sep : α} {u s : List α}

/-- A piece without separators keeps the separators around it apart. -/
theorem infix_cons_free_append (hu : sep ∉ u) (hne : u ≠ []) (v : List α) :
    [sep, sep] <:+: sep :: (u ++ v) ↔ [sep, sep] <:+: v := by
  have hcons : ∀ {c : α} {l : List α}, (c ≠ sep ∨ ∃ d l', l = d :: l' ∧ d ≠ sep) →
      ([sep, sep] <:+: c :: l ↔ [sep, sep] <:+: l) := by
    intro c l hapart
    rw [List.infix_cons_iff]
    refine or_iff_right ?_
    rintro ⟨r, hr⟩
    obtain ⟨rfl, rfl⟩ := List.cons.inj hr
    rcases hapart with hc | ⟨d, l', hl, hd⟩
    · exact hc rfl
    · exact hd (List.cons.inj hl).1.symm
  have hfree : ∀ {u : List α}, sep ∉ u → ([sep, sep] <:+: u ++ v ↔ [sep, sep] <:+: v) := by
    intro u hu
    induction u with
    | nil => rw [List.nil_append]
    | cons c u ih =>
      rw [List.mem_cons, not_or] at hu
      obtain ⟨hc, hu⟩ := hu
      rw [List.cons_append, hcons (Or.inl (Ne.symm hc)), ih hu]
  cases u with
  | nil => exact absurd rfl hne
  | cons c u =>
    have hc : c ≠ sep := fun heq => hu (heq ▸ List.mem_cons_self)
    exact (hcons (Or.inr ⟨c, u ++ v, rfl, hc⟩)).trans (hfree hu)

/-- A list that does not end with a separator gets no two of them from one more. -/
theorem infix_append_sep_iff (hlast : s.getLast? ≠ some sep) :
    [sep, sep] <:+: s ++ [sep] ↔ [sep, sep] <:+: s := by
  refine ⟨?_, fun h => h.trans (List.prefix_append s [sep]).isInfix⟩
  rw [List.infix_concat_iff]
  rintro (⟨r, hr⟩ | hinfix)
  · exfalso
    have happ : (r ++ [sep]) ++ [sep] = s ++ [sep] := by simpa using hr
    obtain ⟨rfl, -⟩ := List.append_inj' happ rfl
    exact hlast (List.getLast?_concat)
  · exact hinfix

end Infix

/-! ### Pieces -/

/-- The pieces, with a separator in front of each. -/
def joined (sep : α) (ts : List (List α)) : List α := ts.flatMap fun t => sep :: t

@[simp] theorem joined_nil (sep : α) : joined sep ([] : List (List α)) = [] := rfl

@[simp] theorem joined_singleton (sep : α) (t : List α) : joined sep [t] = sep :: t := by
  simp [joined]

theorem joined_cons (sep : α) (t : List α) (ts : List (List α)) :
    joined sep (t :: ts) = sep :: t ++ joined sep ts := List.flatMap_cons

@[simp] theorem joined_append (sep : α) (ts ts' : List (List α)) :
    joined sep (ts ++ ts') = joined sep ts ++ joined sep ts' := List.flatMap_append

variable [DecidableEq α] (sep : α)

/-- The pieces of a list, where `t` has been read since the last separator. -/
def tokensFrom : List α → List α → List (List α)
  | t, [] => if t = [] then [] else [t]
  | t, c :: s =>
    if c = sep then (if t = [] then [] else [t]) ++ tokensFrom [] s
    else tokensFrom (t ++ [c]) s

/-- The non-empty pieces of a list. -/
def tokens (s : List α) : List (List α) := tokensFrom sep [] s

variable {sep} {t u v s : List α}

/-- A piece has no separator. -/
theorem not_mem_of_mem_tokensFrom (ht : sep ∉ t) (hu : u ∈ tokensFrom sep t s) : sep ∉ u := by
  have hpiece : ∀ {t : List α}, sep ∉ t → (u ∈ if t = [] then [] else [t]) → sep ∉ u := by
    intro t ht hu
    by_cases hnil : t = []
    · rw [if_pos hnil] at hu
      cases hu
    · rw [if_neg hnil, List.mem_singleton] at hu
      rwa [hu]
  induction s generalizing t with
  | nil => exact hpiece ht hu
  | cons c s ih =>
    rw [tokensFrom] at hu
    by_cases hc : c = sep
    · rw [if_pos hc] at hu
      rcases List.mem_append.mp hu with hu | hu
      · exact hpiece ht hu
      · exact ih List.not_mem_nil hu
    · rw [if_neg hc] at hu
      refine ih ?_ hu
      rw [List.mem_append, List.mem_singleton, not_or]
      exact ⟨ht, Ne.symm hc⟩

/-- A separator cuts the list. -/
theorem tokensFrom_append_sep (t u v : List α) :
    tokensFrom sep t (u ++ sep :: v) = tokensFrom sep t u ++ tokens sep v := by
  induction u generalizing t with
  | nil => simp [tokensFrom, tokens]
  | cons c u ih =>
    rw [List.cons_append, tokensFrom, tokensFrom]
    split
    · rw [ih, List.append_assoc]
    · rw [ih]

theorem tokens_append_sep (u v : List α) :
    tokens sep (u ++ sep :: v) = tokens sep u ++ tokens sep v :=
  tokensFrom_append_sep [] u v

/-- A list without separators is read as a whole. -/
theorem tokensFrom_append_free (hu : sep ∉ u) (t s : List α) :
    tokensFrom sep t (u ++ s) = tokensFrom sep (t ++ u) s := by
  induction u generalizing t with
  | nil => rw [List.nil_append, List.append_nil]
  | cons c u ih =>
    rw [List.mem_cons, not_or] at hu
    obtain ⟨hc, hu⟩ := hu
    rw [List.cons_append, tokensFrom, if_neg (Ne.symm hc), ih hu, List.append_assoc,
      List.singleton_append]

theorem tokens_of_free (hu : sep ∉ u) (hne : u ≠ []) : tokens sep u = [u] := by
  have hall := tokensFrom_append_free hu [] []
  rw [List.append_nil, List.nil_append] at hall
  rw [tokens, hall, tokensFrom, if_neg hne]

/-- **Pieces that are joined** are cut again. -/
theorem tokens_append_joined {ts : List (List α)} (hu : sep ∉ u) (hne : u ≠ [])
    (hts : ∀ t ∈ ts, sep ∉ t ∧ t ≠ []) : tokens sep (u ++ joined sep ts) = u :: ts := by
  induction ts generalizing u with
  | nil => rw [joined_nil, List.append_nil, tokens_of_free hu hne]
  | cons t ts ih =>
    rw [List.forall_mem_cons] at hts
    rw [joined_cons, List.cons_append, tokens_append_sep, tokens_of_free hu hne,
      ih hts.1.1 hts.1.2 hts.2, List.singleton_append]

/-- At most one separator is added. -/
theorem length_joined_tokensFrom_le (t s : List α) :
    (joined sep (tokensFrom sep t s)).length ≤ t.length + s.length + 1 := by
  induction s generalizing t with
  | nil =>
    rw [tokensFrom]
    split <;> simp
  | cons c s ih =>
    rw [tokensFrom]
    split
    · have hs := ih []
      rw [List.length_nil] at hs
      rw [joined_append, List.length_append, List.length_cons]
      split
      · rw [joined_nil, List.length_nil]
        omega
      · rw [joined_singleton, List.length_cons]
        omega
    · have hs := ih (t ++ [c])
      rw [List.length_append, List.length_singleton] at hs
      rw [List.length_cons]
      omega

/-- **Cut and joined again**, a list is the same if and only if it has no separator
at its ends and no two of them side by side. -/
theorem joined_tokensFrom_eq_iff (ht : sep ∉ t) (s : List α) :
    joined sep (tokensFrom sep t s) = sep :: (t ++ s) ↔
      ¬ [sep, sep] <:+: sep :: (t ++ (s ++ [sep])) := by
  induction s generalizing t with
  | nil =>
    rw [tokensFrom, List.append_nil, List.nil_append]
    by_cases hne : t = []
    · subst hne
      rw [if_pos rfl]
      exact ⟨(fun h => nomatch h), fun h => absurd (List.infix_refl _) h⟩
    · rw [if_neg hne, joined_singleton, infix_cons_free_append ht hne]
      refine ⟨fun _ hinfix => ?_, fun _ => rfl⟩
      exact absurd hinfix.length_le (by simp)
  | cons c s ih =>
    rw [tokensFrom]
    by_cases hc : c = sep
    · subst hc
      rw [if_pos rfl, joined_append]
      by_cases hne : t = []
      · -- a separator more than can come back
        subst hne
        rw [if_pos rfl, joined_nil, List.nil_append]
        refine ⟨fun heq => ?_, fun hno => absurd ⟨[], s ++ [c], rfl⟩ hno⟩
        have hlen : (joined c (tokensFrom c [] s)).length ≤ _ := length_joined_tokensFrom_le [] s
        rw [heq] at hlen
        simp at hlen
      · rw [if_neg hne, joined_singleton, List.cons_append, infix_cons_free_append ht hne,
          List.cons_append, List.cons_inj_right, List.append_cancel_left_eq]
        exact ih List.not_mem_nil
    · have ht' : sep ∉ t ++ [c] := by
        simp only [List.mem_append, List.mem_singleton, not_or]
        exact ⟨ht, Ne.symm hc⟩
      rw [if_neg hc]
      have hs := ih ht'
      rwa [List.append_assoc, List.append_assoc] at hs

theorem joined_tokens_eq_iff (s : List α) :
    joined sep (tokens sep s) = sep :: s ↔ ¬ [sep, sep] <:+: sep :: (s ++ [sep]) :=
  joined_tokensFrom_eq_iff List.not_mem_nil s

end Xkim
