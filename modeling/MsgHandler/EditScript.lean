/-
MsgHandler/EditScript.lean

Edit scripts with transpositions.

A script turns one word into another from left to right.  Each of its edits
consumes letters of the source and produces letters of the target: it keeps a
letter, inserts, deletes or substitutes one, or swaps two neighbours.  What an
edit has produced is not edited again, so the least cost of a script is the
*optimal string alignment* distance `osa`.

`osaLate` is the least cost of the scripts that do not begin with a swap.  It
differs from `osa` by one at most, and it differs exactly when every least
script has to begin with a swap (`osaLate_eq_iff`); the condition for that,
`NeedsFirstSwap`, compares the distances of what is left of the words after
each of the possible first edits.
-/
import Mathlib

namespace Xkim

/-- One edit. -/
inductive Edit (α : Type*)
  | keep (a : α)
  | insert (a : α)
  | delete (a : α)
  | subst (a b : α)
  | swap (a b : α)
  deriving DecidableEq, Repr

namespace Edit

variable {α : Type*}

/-- The letters that the edit consumes. -/
def source : Edit α → List α
  | keep a => [a]
  | insert _ => []
  | delete a => [a]
  | subst a _ => [a]
  | swap a b => [a, b]

/-- The letters that it produces. -/
def target : Edit α → List α
  | keep a => [a]
  | insert a => [a]
  | delete _ => []
  | subst _ b => [b]
  | swap a b => [b, a]

def cost : Edit α → ℕ
  | keep _ => 0
  | _ => 1

/-! ### Scripts -/

/-- The script turns `s` into `t`. -/
def Turns (e : List (Edit α)) (s t : List α) : Prop :=
  e.flatMap source = s ∧ e.flatMap target = t

/-- The cost of a script. -/
def total (e : List (Edit α)) : ℕ := (e.map cost).sum

variable {e e' : List (Edit α)} {x : Edit α} {s t s' t' u v : List α} {a b : α}

@[simp] theorem total_nil : total ([] : List (Edit α)) = 0 := rfl

@[simp] theorem total_cons (x : Edit α) (e : List (Edit α)) :
    total (x :: e) = x.cost + total e := rfl

@[simp] theorem total_append (e e' : List (Edit α)) : total (e ++ e') = total e + total e' := by
  simp [total]

theorem turns_nil : Turns ([] : List (Edit α)) [] [] := ⟨rfl, rfl⟩

theorem Turns.append (h : Turns e s t) (h' : Turns e' s' t') :
    Turns (e ++ e') (s ++ s') (t ++ t') := by
  obtain ⟨rfl, rfl⟩ := h
  obtain ⟨rfl, rfl⟩ := h'
  exact ⟨List.flatMap_append, List.flatMap_append⟩

theorem turns_singleton (x : Edit α) : Turns [x] x.source x.target :=
  ⟨List.flatMap_singleton .., List.flatMap_singleton ..⟩

theorem Turns.cons (x : Edit α) (h : Turns e s t) :
    Turns (x :: e) (x.source ++ s) (x.target ++ t) :=
  (turns_singleton x).append h

/-- The first edit of a script. -/
theorem Turns.of_cons (h : Turns (x :: e) s t) :
    ∃ u v, s = x.source ++ u ∧ t = x.target ++ v ∧ Turns e u v :=
  ⟨_, _, h.1.symm, h.2.symm, rfl, rfl⟩

/-- The last edit of a script. -/
theorem Turns.of_concat (h : Turns (e ++ [x]) s t) :
    ∃ u v, s = u ++ x.source ∧ t = v ++ x.target ∧ Turns e u v := by
  obtain ⟨rfl, rfl⟩ := h
  refine ⟨_, _, ?_, ?_, rfl, rfl⟩
  · rw [List.flatMap_append, List.flatMap_singleton]
  · rw [List.flatMap_append, List.flatMap_singleton]

/-- Every edit consumes or produces something. -/
theorem Turns.eq_nil (h : Turns e [] []) : e = [] := by
  cases e with
  | nil => rfl
  | cons x e =>
    obtain ⟨u, v, hs, ht, -⟩ := h.of_cons
    cases x with
    | keep a => cases hs
    | insert a => cases ht
    | delete a => cases hs
    | subst a b => cases hs
    | swap a b => cases hs

/-- A script that costs nothing keeps everything. -/
theorem Turns.eq_of_total (h : Turns e s t) (hzero : total e = 0) : s = t := by
  induction e generalizing s t with
  | nil => exact h.1.symm.trans h.2
  | cons x e ih =>
    obtain ⟨u, v, rfl, rfl, hrest⟩ := h.of_cons
    rw [total_cons] at hzero
    have huv := ih hrest (by omega)
    cases x with
    | keep a => rw [huv]; rfl
    | insert a => exact absurd hzero (by simp [cost])
    | delete a => exact absurd hzero (by simp [cost])
    | subst a b => exact absurd hzero (by simp [cost])
    | swap a b => exact absurd hzero (by simp [cost])

/-- Everything can be deleted and inserted anew. -/
theorem turns_rewrite (s t : List α) : Turns (s.map delete ++ t.map insert) s t := by
  have hdelete : Turns (s.map delete) s [] := by
    induction s with
    | nil => exact turns_nil
    | cons a s ih => exact ih.cons (delete a)
  have hinsert : Turns (t.map insert) [] t := by
    induction t with
    | nil => exact turns_nil
    | cons a t ih => exact ih.cons (insert a)
  have h := hdelete.append hinsert
  rwa [List.append_nil, List.nil_append] at h

theorem total_rewrite (s t : List α) :
    total (s.map delete ++ t.map insert) = s.length + t.length := by
  have hdelete : total (s.map delete) = s.length := by
    induction s with
    | nil => rfl
    | cons a s ih => rw [List.map_cons, total_cons, ih, List.length_cons, Nat.add_comm]; rfl
  have hinsert : total (t.map insert) = t.length := by
    induction t with
    | nil => rfl
    | cons a t ih => rw [List.map_cons, total_cons, ih, List.length_cons, Nat.add_comm]; rfl
  rw [total_append, hdelete, hinsert]

/-! ### The least cost -/

/-- The least cost of the scripts in `P` that turn `s` into `t`. -/
noncomputable def leastCost (P : List (Edit α) → Prop) (s t : List α) : ℕ :=
  sInf {n | ∃ e, P e ∧ Turns e s t ∧ total e = n}

variable {P : List (Edit α) → Prop}

theorem leastCost_le (hP : P e) (h : Turns e s t) : leastCost P s t ≤ total e :=
  Nat.sInf_le ⟨e, hP, h, rfl⟩

theorem exists_leastCost (hP : P e) (h : Turns e s t) :
    ∃ e, P e ∧ Turns e s t ∧ total e = leastCost P s t := by
  have hne : {n | ∃ e, P e ∧ Turns e s t ∧ total e = n}.Nonempty := ⟨total e, e, hP, h, rfl⟩
  exact Nat.sInf_mem hne

/-- **The optimal string alignment distance.** -/
noncomputable def osa (s t : List α) : ℕ := leastCost (fun _ => True) s t

theorem osa_le (h : Turns e s t) : osa s t ≤ total e := leastCost_le trivial h

theorem exists_osa (s t : List α) : ∃ e, Turns e s t ∧ total e = osa s t := by
  obtain ⟨e, -, h, hcost⟩ := exists_leastCost (P := fun _ => True) trivial (turns_rewrite s t)
  exact ⟨e, h, hcost⟩

theorem eq_of_osa_eq_zero (h : osa s t = 0) : s = t := by
  obtain ⟨e, he, hcost⟩ := exists_osa s t
  exact he.eq_of_total (hcost.trans h)

/-- A first edit, and the distance of the rest. -/
theorem osa_le_cons (x : Edit α) (u v : List α) :
    osa (x.source ++ u) (x.target ++ v) ≤ x.cost + osa u v := by
  obtain ⟨e, he, hcost⟩ := exists_osa u v
  rw [← hcost]
  exact osa_le (he.cons x)

/-! ### Scripts that do not begin with a swap -/

/-- The script does not begin with a swap. -/
def NotSwapFirst (e : List (Edit α)) : Prop := ∀ a b, e.head? ≠ some (swap a b)

theorem notSwapFirst_cons (hx : ∀ a b, x ≠ swap a b) (e : List (Edit α)) :
    NotSwapFirst (x :: e) := by
  intro a b h
  exact hx a b (Option.some.inj h)

/-- A script goes on with any edit, if it has begun. -/
theorem NotSwapFirst.concat (he : NotSwapFirst e) (hx : e = [] → ∀ a b, x ≠ swap a b) :
    NotSwapFirst (e ++ [x]) := by
  cases e with
  | nil => exact notSwapFirst_cons (hx rfl) []
  | cons y e => exact he

theorem notSwapFirst_rewrite (s t : List α) :
    NotSwapFirst (s.map delete ++ t.map insert) := by
  intro a b
  cases s with
  | nil => cases t <;> simp
  | cons c s => simp

/-- There is a script with the cost `n` that does not begin with a swap. -/
def CostsLate (s t : List α) (n : ℕ) : Prop :=
  ∃ e, NotSwapFirst e ∧ Turns e s t ∧ total e = n

/-- **One more edit.** -/
theorem CostsLate.concat {n : ℕ} (h : CostsLate s t n) (x : Edit α)
    (hx : s = [] → ∀ a b, x ≠ swap a b) (hs : s' = s ++ x.source) (ht : t' = t ++ x.target) :
    CostsLate s' t' (n + x.cost) := by
  obtain ⟨e, hfirst, he, rfl⟩ := h
  subst hs ht
  refine ⟨e ++ [x], hfirst.concat ?_, he.append (turns_singleton x), total_append e [x]⟩
  rintro rfl
  exact hx he.1.symm

/-- The least cost of a script that does not begin with a swap. -/
noncomputable def osaLate (s t : List α) : ℕ := leastCost NotSwapFirst s t

theorem osaLate_le (he : NotSwapFirst e) (h : Turns e s t) : osaLate s t ≤ total e :=
  leastCost_le he h

theorem exists_osaLate (s t : List α) :
    ∃ e, NotSwapFirst e ∧ Turns e s t ∧ total e = osaLate s t :=
  exists_leastCost (notSwapFirst_rewrite s t) (turns_rewrite s t)

theorem osa_le_osaLate (s t : List α) : osa s t ≤ osaLate s t := by
  obtain ⟨e, -, he, hcost⟩ := exists_osaLate s t
  rw [← hcost]
  exact osa_le he

/-- A first edit that is no swap, and the distance of the rest. -/
theorem osaLate_le_cons (hx : ∀ a b, x ≠ swap a b) (u v : List α) :
    osaLate (x.source ++ u) (x.target ++ v) ≤ x.cost + osa u v := by
  obtain ⟨e, he, hcost⟩ := exists_osa u v
  rw [← hcost]
  exact osaLate_le (notSwapFirst_cons hx e) (he.cons x)

/-- A least script begins with a swap, or there is one that does not. -/
theorem osaLate_le_or_swap (s t : List α) : osaLate s t ≤ osa s t ∨
    ∃ a b u v, s = a :: b :: u ∧ t = b :: a :: v ∧ osa s t = 1 + osa u v := by
  obtain ⟨e, he, hcost⟩ := exists_osa s t
  rw [← hcost]
  rcases e with - | ⟨x, e⟩
  · exact Or.inl (osaLate_le (fun a b => by simp) he)
  · by_cases hx : ∀ a b, x ≠ swap a b
    · exact Or.inl (osaLate_le (notSwapFirst_cons hx e) he)
    · push Not at hx
      obtain ⟨a, b, rfl⟩ := hx
      obtain ⟨u, v, rfl, rfl, hrest⟩ := he.of_cons
      refine Or.inr ⟨a, b, u, v, rfl, rfl, ?_⟩
      refine le_antisymm ?_ (Nat.add_le_add_left (osa_le hrest) 1)
      rw [hcost]
      exact osa_le_cons (swap a b) u v

/-- **One more at most**: a swap at the start is two substitutions. -/
theorem osaLate_le_succ (s t : List α) : osaLate s t ≤ osa s t + 1 := by
  rcases osaLate_le_or_swap s t with hle | ⟨a, b, u, v, rfl, rfl, hcost⟩
  · omega
  · have hfirst : osaLate (a :: b :: u) (b :: a :: v) ≤ 1 + osa (b :: u) (a :: v) :=
      osaLate_le_cons (x := subst a b) (by simp) (b :: u) (a :: v)
    have hsecond : osa (b :: u) (a :: v) ≤ 1 + osa u v := osa_le_cons (subst b a) u v
    omega

/-- The words begin with the same two letters the other way around, and after
a swap less is left to do than after any other first edit. -/
def NeedsFirstSwap (s t : List α) : Prop :=
  ∃ a b u v, s = a :: b :: u ∧ t = b :: a :: v ∧ a ≠ b ∧ osa u v < osa (b :: u) (a :: v) ∧
    osa u v < osa (b :: u) (b :: a :: v) ∧ osa u v < osa (a :: b :: u) (a :: v)

/-- Scripts that do not begin with a swap, where the first letters differ. -/
theorem le_osaLate_of_ne (hab : a ≠ b) (u v : List α) {n : ℕ} (hsubst : n ≤ osa u v)
    (hdelete : n ≤ osa u (b :: v)) (hinsert : n ≤ osa (a :: u) v) :
    n + 1 ≤ osaLate (a :: u) (b :: v) := by
  obtain ⟨e, hfirst, he, hcost⟩ := exists_osaLate (a :: u) (b :: v)
  rw [← hcost]
  rcases e with - | ⟨x, e⟩
  · exact absurd he.1 (by simp)
  · obtain ⟨u', v', hs, ht, hrest⟩ := he.of_cons
    have hle := osa_le hrest
    rw [total_cons]
    cases x with
    | keep c =>
      obtain ⟨rfl, rfl⟩ := List.cons.inj hs
      exact absurd (List.cons.inj ht).1.symm hab
    | insert c =>
      obtain ⟨rfl, rfl⟩ := List.cons.inj ht
      obtain rfl : a :: u = u' := hs
      show n + 1 ≤ 1 + total e
      omega
    | delete c =>
      obtain ⟨rfl, rfl⟩ := List.cons.inj hs
      obtain rfl : b :: v = v' := ht
      show n + 1 ≤ 1 + total e
      omega
    | subst c d =>
      obtain ⟨rfl, rfl⟩ := List.cons.inj hs
      obtain ⟨rfl, rfl⟩ := List.cons.inj ht
      show n + 1 ≤ 1 + total e
      omega
    | swap c d => exact absurd rfl (hfirst c d)

/-- **When a script can do without a swap at the start.** -/
theorem osaLate_eq_iff (s t : List α) : osaLate s t = osa s t ↔ ¬ NeedsFirstSwap s t := by
  constructor
  · rintro heq ⟨a, b, u, v, rfl, rfl, hab, hsubst, hdelete, hinsert⟩
    have hlate := le_osaLate_of_ne hab (b :: u) (a :: v) hsubst hdelete hinsert
    have hswap : osa (a :: b :: u) (b :: a :: v) ≤ 1 + osa u v := osa_le_cons (swap a b) u v
    omega
  · intro hneeds
    refine le_antisymm ?_ (osa_le_osaLate s t)
    rcases osaLate_le_or_swap s t with hle | ⟨a, b, u, v, rfl, rfl, hcost⟩
    · exact hle
    · rw [hcost]
      by_cases hab : a = b
      · -- two equal letters can be kept
        subst hab
        have hfirst : osaLate (a :: a :: u) (a :: a :: v) ≤ 0 + osa (a :: u) (a :: v) :=
          osaLate_le_cons (x := keep a) (by simp) (a :: u) (a :: v)
        have hsecond : osa (a :: u) (a :: v) ≤ 0 + osa u v := osa_le_cons (keep a) u v
        omega
      · by_contra hlt
        refine hneeds ⟨a, b, u, v, rfl, rfl, hab, ?_, ?_, ?_⟩
        · have hfirst : osaLate (a :: b :: u) (b :: a :: v) ≤ 1 + osa (b :: u) (a :: v) :=
            osaLate_le_cons (x := subst a b) (by simp) (b :: u) (a :: v)
          omega
        · have hfirst : osaLate (a :: b :: u) (b :: a :: v) ≤ 1 + osa (b :: u) (b :: a :: v) :=
            osaLate_le_cons (x := delete a) (by simp) (b :: u) (b :: a :: v)
          omega
        · have hfirst : osaLate (a :: b :: u) (b :: a :: v) ≤ 1 + osa (a :: b :: u) (a :: v) :=
            osaLate_le_cons (x := insert b) (by simp) (a :: b :: u) (a :: v)
          omega

open Classical in
/-- What the missing swap costs. -/
theorem osaLate_eq (s t : List α) :
    osaLate s t = osa s t + if NeedsFirstSwap s t then 1 else 0 := by
  have hiff := osaLate_eq_iff s t
  have hle := osa_le_osaLate s t
  have hsucc := osaLate_le_succ s t
  split_ifs with hneeds
  · have hne : osaLate s t ≠ osa s t := fun heq => hiff.mp heq hneeds
    omega
  · rw [hiff.mpr hneeds]
    rfl

end Edit

end Xkim
