/-
MsgHandler/Fifo.lean

A stable priority queue as a list of queues, the one with the highest
priority first.  `put` appends to one of the queues, and `get` takes the
oldest element of the first queue that has one.  `drop n` takes `n` elements
that way.

What is in the queues is their `flatten`: `put` adds one element to it
(`put_perm`), `get` takes its first one (`flatten_of_get`) and `drop` the first
ones (`flatten_drop`), so that nothing is lost and nothing is duplicated.
-/
import Mathlib

namespace Xkim

namespace Fifo

variable {α : Type*} {qs qs' : List (List α)} {v : α}

/-- Append `v` to the queue number `p`. -/
def put : List (List α) → ℕ → α → List (List α)
  | [], _, _ => []
  | q :: qs, 0, v => (q ++ [v]) :: qs
  | q :: qs, p + 1, v => q :: put qs p v

/-- Take the oldest element of the first queue that is not empty. -/
def get : List (List α) → Option (α × List (List α))
  | [] => none
  | [] :: qs => (get qs).map fun r => (r.1, [] :: r.2)
  | (v :: q) :: qs => some (v, q :: qs)

/-- Take the first `n` elements of all, queue by queue. -/
def drop : ℕ → List (List α) → List (List α)
  | _, [] => []
  | n, q :: qs => q.drop n :: drop (n - q.length) qs

@[simp] theorem length_put (qs : List (List α)) (p : ℕ) (v : α) :
    (put qs p v).length = qs.length := by
  induction qs generalizing p with
  | nil => rfl
  | cons q qs ih =>
    cases p with
    | zero => rfl
    | succ p => simp [put, ih]

@[simp] theorem length_drop (n : ℕ) (qs : List (List α)) : (drop n qs).length = qs.length := by
  induction qs generalizing n with
  | nil => rfl
  | cons q qs ih => simp [drop, ih]

@[simp] theorem drop_zero (qs : List (List α)) : drop 0 qs = qs := by
  induction qs with
  | nil => rfl
  | cons q qs ih => simp [drop, ih]

/-- There is no queue with such a number. -/
theorem put_of_le {p : ℕ} (hp : qs.length ≤ p) (v : α) : put qs p v = qs := by
  induction qs generalizing p with
  | nil => rfl
  | cons q qs ih =>
    cases p with
    | zero => exact absurd hp (Nat.not_succ_le_zero _)
    | succ p => rw [put, ih (Nat.le_of_succ_le_succ hp)]

/-- **`put` adds its element.** -/
theorem put_perm {p : ℕ} (hp : p < qs.length) (v : α) :
    (put qs p v).flatten.Perm (v :: qs.flatten) := by
  induction qs generalizing p with
  | nil => exact absurd hp (Nat.not_lt_zero p)
  | cons q qs ih =>
    cases p with
    | zero =>
      show ((q ++ [v]) ++ qs.flatten).Perm (v :: (q ++ qs.flatten))
      rw [List.append_assoc]
      exact List.perm_middle
    | succ p =>
      have hrest := ih (Nat.lt_of_succ_lt_succ hp)
      exact (hrest.append_left q).trans List.perm_middle

/-- **`get` takes the first element of all.** -/
theorem flatten_of_get (h : get qs = some (v, qs')) : qs.flatten = v :: qs'.flatten := by
  induction qs generalizing qs' with
  | nil => cases h
  | cons q qs ih =>
    cases q with
    | nil =>
      obtain ⟨⟨w, rest⟩, hrest, heq⟩ := Option.map_eq_some_iff.mp h
      cases heq
      show qs.flatten = w :: rest.flatten
      exact ih hrest
    | cons w q =>
      cases h
      rfl

theorem get_eq_none (h : get qs = none) : qs.flatten = [] := by
  induction qs with
  | nil => rfl
  | cons q qs ih =>
    cases q with
    | nil => exact ih (Option.map_eq_none_iff.mp h)
    | cons w q => cases h

/-- Queues that are all the same stand for queues that are all the same. -/
theorem forall₂_replicate {β γ : Type*} {R : β → γ → Prop} {b : β} {c : γ} (h : R b c) (n : ℕ) :
    List.Forall₂ R (List.replicate n b) (List.replicate n c) := by
  induction n with
  | zero => exact .nil
  | succ n ih => exact .cons h ih

/-- **Priority and order**: the element is the oldest one of its queue, and
the queues before that are empty. -/
theorem get_lowest (h : get qs = some (v, qs')) :
    ∃ p q, qs[p]? = some (v :: q) ∧ (∀ j < p, qs[j]? = some []) ∧ qs' = qs.set p q := by
  induction qs generalizing qs' with
  | nil => cases h
  | cons q qs ih =>
    cases q with
    | nil =>
      obtain ⟨⟨w, rest⟩, hrest, heq⟩ := Option.map_eq_some_iff.mp h
      cases heq
      obtain ⟨p, q, hp, hbefore, rfl⟩ := ih hrest
      refine ⟨p + 1, q, hp, ?_, rfl⟩
      intro j hj
      cases j with
      | zero => rfl
      | succ j => exact hbefore j (Nat.lt_of_succ_lt_succ hj)
    | cons w q =>
      cases h
      exact ⟨0, q, rfl, fun j hj => absurd hj (Nat.not_lt_zero j), rfl⟩

end Fifo

end Xkim
