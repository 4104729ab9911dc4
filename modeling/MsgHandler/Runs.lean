/-
MsgHandler/Runs.lean

The maximal runs of a list between elements of some kind, such as the words of
a text between blanks.

`runs p s` are the runs of elements that are not `p`, and `squeezed p r s` are
the runs joined by single elements `r`.  They can be found in one pass that
remembers whether an `r` is due (`squeezed_eq`).  If `r` is itself an element
of the kind, squeezing twice is squeezing once (`squeezed_squeezed`).
-/
import MsgHandler.Tokens

namespace Xkim

variable {α : Type*} (p : α → Bool) (r : α)

/-- The maximal runs of elements that are not `p`. -/
def runs (s : List α) : List (List α) := (s.splitOnP p).filter (· ≠ [])

/-- The runs, with one `r` between them. -/
def squeezed (s : List α) : List α := [r].intercalate (runs p s)

/-- What one pass writes for a list; the flag says that an `r` is due. -/
def squeezeFrom : Bool → List α → List α
  | _, [] => []
  | due, c :: s =>
    if p c then squeezeFrom true s else (if due then [r] else []) ++ c :: squeezeFrom false s

/-- A counter of the elements `p` in a row, which has counted `n` before the
list, stays below the bound. -/
def CountsBelow (bound : ℕ) : ℕ → List α → Prop
  | _, [] => True
  | n, c :: s => if p c then n + 1 < bound ∧ CountsBelow bound (n + 1) s else CountsBelow bound 0 s

variable {p} {r} {s : List α} {c : α}

/-! ### Runs -/

@[simp] theorem runs_nil : runs p ([] : List α) = [] := by simp [runs]

theorem runs_cons_of_pos (hc : p c) (s : List α) : runs p (c :: s) = runs p s := by
  simp [runs, List.splitOnP_cons_eq_if_modifyHead, hc]

theorem runs_dropWhile (s : List α) : runs p (s.dropWhile p) = runs p s := by
  induction s with
  | nil => rfl
  | cons c s ih =>
    by_cases hc : p c
    · rw [List.dropWhile_cons_of_pos hc, ih, runs_cons_of_pos hc]
    · rw [List.dropWhile_cons_of_neg hc]

/-- A list that begins with a run goes on with the first piece of the rest. -/
theorem runs_cons_of_neg (hc : ¬ p c) {u : List α} {us : List (List α)}
    (hs : s.splitOnP p = u :: us) : runs p (c :: s) = (c :: u) :: us.filter (· ≠ []) := by
  simp [runs, List.splitOnP_cons_eq_if_modifyHead, hc, hs]

theorem not_mem_of_mem_splitOnP {u : List α} (hu : u ∈ s.splitOnP p) (hc : c ∈ u) : ¬ p c := by
  induction s generalizing u with
  | nil =>
    rw [List.splitOnP_nil, List.mem_singleton] at hu
    rw [hu] at hc
    cases hc
  | cons d s ih =>
    rw [List.splitOnP_cons_eq_if_modifyHead] at hu
    split_ifs at hu with hd
    · rcases List.mem_cons.mp hu with rfl | hu
      · cases hc
      · exact ih hu hc
    · obtain ⟨v, vs, hvs⟩ := List.exists_cons_of_ne_nil (List.splitOnP_ne_nil p s)
      rw [hvs] at hu ih
      rw [List.modifyHead_cons] at hu
      rcases List.mem_cons.mp hu with rfl | hu
      · rcases List.mem_cons.mp hc with rfl | hc
        · exact hd
        · exact ih List.mem_cons_self hc
      · exact ih (List.mem_cons_of_mem _ hu) hc

/-- A run is not empty and has no `p` in it. -/
theorem mem_runs {u : List α} (hu : u ∈ runs p s) : u ≠ [] ∧ ∀ c ∈ u, ¬ p c := by
  obtain ⟨hu, hne⟩ := List.mem_filter.mp hu
  exact ⟨of_decide_eq_true hne, fun c hc => not_mem_of_mem_splitOnP hu hc⟩

/-! ### One pass -/

theorem intercalate_cons_joined (u : List α) (us : List (List α)) :
    [r].intercalate (u :: us) = u ++ joined r us := by
  induction us generalizing u with
  | nil => rw [List.intercalate_singleton, joined_nil, List.append_nil]
  | cons v us ih =>
    rw [List.intercalate_cons_of_ne_nil (List.cons_ne_nil v us), ih, joined_cons]
    simp

/-- What one pass writes, with and without an `r` due. -/
theorem squeezeFrom_eq {u : List α} {us : List (List α)} (hs : s.splitOnP p = u :: us) :
    squeezeFrom p r false s = u ++ joined r (us.filter (· ≠ [])) ∧
      squeezeFrom p r true s = joined r (runs p s) := by
  induction s generalizing u us with
  | nil =>
    rw [List.splitOnP_nil] at hs
    obtain ⟨rfl, rfl⟩ := List.cons.inj hs
    simp [squeezeFrom]
  | cons c s ih =>
    obtain ⟨v, vs, hvs⟩ := List.exists_cons_of_ne_nil (List.splitOnP_ne_nil p s)
    obtain ⟨hfalse, htrue⟩ := ih hvs
    rw [List.splitOnP_cons_eq_if_modifyHead, hvs] at hs
    by_cases hc : p c
    · rw [if_pos hc] at hs
      obtain ⟨rfl, rfl⟩ := List.cons.inj hs
      rw [squeezeFrom, squeezeFrom, if_pos hc, if_pos hc, htrue, runs_cons_of_pos hc,
        List.nil_append, ← hvs]
      exact ⟨rfl, rfl⟩
    · rw [if_neg hc, List.modifyHead_cons] at hs
      obtain ⟨rfl, rfl⟩ := List.cons.inj hs
      rw [squeezeFrom, squeezeFrom, if_neg hc, if_neg hc, hfalse, runs_cons_of_neg hc hvs,
        joined_cons]
      simp

/-- **Squeezing in one pass**, behind the elements at the start. -/
theorem squeezed_eq (s : List α) : squeezed p r s = squeezeFrom p r false (s.dropWhile p) := by
  rw [squeezed, ← runs_dropWhile]
  rcases hs : s.dropWhile p with - | ⟨c, s'⟩
  · rw [runs_nil, List.intercalate_nil, squeezeFrom]
  · have hc : ¬ p c := by
      have hhead := List.head?_dropWhile_not p s
      rw [hs] at hhead
      simpa using hhead
    obtain ⟨v, vs, hvs⟩ := List.exists_cons_of_ne_nil (List.splitOnP_ne_nil p s')
    rw [runs_cons_of_neg hc hvs, intercalate_cons_joined, squeezeFrom, if_neg hc,
      (squeezeFrom_eq hvs).1]
    rfl

/-! ### What a squeezed list consists of -/

theorem mem_squeezeFrom {due : Bool} (h : c ∈ squeezeFrom p r due s) : c ∈ s ∨ c = r := by
  induction s generalizing due with
  | nil => cases h
  | cons d s ih =>
    rw [squeezeFrom] at h
    split_ifs at h with hd hdue
    · exact (ih h).imp_left (List.mem_cons_of_mem d)
    · simp only [List.singleton_append, List.mem_cons] at h
      rcases h with rfl | rfl | h
      · exact Or.inr rfl
      · exact Or.inl List.mem_cons_self
      · exact (ih h).imp_left (List.mem_cons_of_mem d)
    · simp only [List.nil_append, List.mem_cons] at h
      rcases h with rfl | h
      · exact Or.inl List.mem_cons_self
      · exact (ih h).imp_left (List.mem_cons_of_mem d)

theorem mem_of_mem_squeezed (h : c ∈ squeezed p r s) : c ∈ s ∨ c = r := by
  rw [squeezed_eq] at h
  exact (mem_squeezeFrom h).imp_left fun hc => (List.dropWhile_sublist p).subset hc

theorem mem_squeezeFrom_of_mem {due : Bool} (h : c ∈ s) (hc : ¬ p c) :
    c ∈ squeezeFrom p r due s := by
  induction s generalizing due with
  | nil => cases h
  | cons d s ih =>
    rw [squeezeFrom]
    rcases List.mem_cons.mp h with rfl | h
    · rw [if_neg hc]
      exact List.mem_append_right _ List.mem_cons_self
    · split_ifs
      · exact ih h
      · exact List.mem_append_right _ (List.mem_cons_of_mem _ (ih h))
      · exact List.mem_append_right _ (List.mem_cons_of_mem _ (ih h))

/-- Nothing is lost but elements of the kind. -/
theorem mem_squeezed (h : c ∈ s) (hc : ¬ p c) : c ∈ squeezed p r s := by
  rw [squeezed_eq]
  refine mem_squeezeFrom_of_mem ?_ hc
  rw [← List.takeWhile_append_dropWhile (p := p) (l := s)] at h
  exact (List.mem_append.mp h).resolve_left fun h' => hc (List.mem_takeWhile_imp h')

/-! ### Squeezing twice -/

theorem runs_intercalate (hr : p r) {us : List (List α)}
    (hus : ∀ u ∈ us, u ≠ [] ∧ ∀ c ∈ u, ¬ p c) : runs p ([r].intercalate us) = us := by
  induction us with
  | nil => rw [List.intercalate_nil, runs_nil]
  | cons u us ih =>
    obtain ⟨hne, hu⟩ := hus u List.mem_cons_self
    have hfree : ∀ c ∈ u, p c = false := fun c hc => Bool.eq_false_iff.mpr (hu c hc)
    have hrest := ih fun v hv => hus v (List.mem_cons_of_mem u hv)
    rcases eq_or_ne us [] with rfl | hus'
    · rw [List.intercalate_singleton, runs, List.splitOnP_eq_singleton hfree]
      simp [hne]
    · rw [List.intercalate_cons_of_ne_nil hus', List.append_assoc, List.singleton_append, runs,
        List.splitOnP_append_cons_of_forall_mem hfree r hr,
        List.filter_cons_of_pos (by simpa using hne)]
      exact congrArg (u :: ·) hrest

/-- **Squeezing twice is squeezing once**, with an element of the kind. -/
theorem squeezed_squeezed (hr : p r) (s : List α) :
    squeezed p r (squeezed p r s) = squeezed p r s := by
  rw [squeezed, squeezed, runs_intercalate hr fun u hu => mem_runs hu]

/-! ### Counting the elements between the runs -/

theorem countsBelow_iff_from {bound n : ℕ} (hn : n < bound) :
    CountsBelow p bound n s ↔
      (∀ u, u <+: s → (∀ c ∈ u, p c) → n + u.length < bound) ∧
      ∀ u, u <:+: s → (∀ c ∈ u, p c) → u.length < bound := by
  induction s generalizing n with
  | nil => simp [CountsBelow, hn, Nat.zero_lt_of_lt hn]
  | cons c s ih =>
    rw [CountsBelow]
    simp only [List.infix_cons_iff, List.prefix_cons_iff]
    split_ifs with hc
    · constructor
      · rintro ⟨hlt, hs⟩
        obtain ⟨hpre, hin⟩ := (ih hlt).mp hs
        have hfirst : ∀ u, (u = [] ∨ ∃ v, u = c :: v ∧ v <+: s) → (∀ c ∈ u, p c) →
            n + u.length < bound := by
          rintro u (rfl | ⟨v, rfl, hv⟩) hu
          · exact hn
          · have := hpre v hv (fun d hd => hu d (List.mem_cons_of_mem c hd))
            rw [List.length_cons]
            omega
        refine ⟨hfirst, ?_⟩
        rintro u (hu | hu) hp
        · exact lt_of_le_of_lt (Nat.le_add_left _ _) (hfirst u hu hp)
        · exact hin u hu hp
      · rintro ⟨hpre, hin⟩
        have hfirst : ∀ v, v <+: s → (∀ d ∈ v, p d) → n + 1 + v.length < bound := by
          intro v hv hp
          have := hpre (c :: v) (Or.inr ⟨v, rfl, hv⟩) (by simpa using ⟨hc, hp⟩)
          rw [List.length_cons] at this
          omega
        have hlt : n + 1 < bound := hfirst [] (List.nil_prefix) (by simp)
        exact ⟨hlt, (ih hlt).mpr ⟨hfirst, fun u hu => hin u (Or.inr hu)⟩⟩
    · rw [ih (Nat.zero_lt_of_lt hn)]
      constructor
      · rintro ⟨-, hin⟩
        -- a prefix with `c` in it is not made of elements `p`
        have hnil : ∀ u, (u = [] ∨ ∃ v, u = c :: v ∧ v <+: s) → (∀ d ∈ u, p d) → u = [] := by
          rintro u (rfl | ⟨v, rfl, -⟩) hu
          · rfl
          · exact absurd (hu c List.mem_cons_self) hc
        refine ⟨fun u hu hp => ?_, ?_⟩
        · rw [hnil u hu hp]
          exact hn
        · rintro u (hu | hu) hp
          · rw [hnil u hu hp]
            exact Nat.zero_lt_of_lt hn
          · exact hin u hu hp
      · rintro ⟨-, hin⟩
        refine ⟨fun u hu hp => ?_, fun u hu => hin u (Or.inr hu)⟩
        rw [Nat.zero_add]
        exact hin u (Or.inr hu.isInfix) hp

/-- **The counter stays below the bound** iff no part of the list that is made
of elements `p` has that length. -/
theorem countsBelow_iff {bound : ℕ} (hbound : 0 < bound) :
    CountsBelow p bound 0 s ↔ ∀ u, u <:+: s → (∀ c ∈ u, p c) → u.length < bound := by
  rw [countsBelow_iff_from hbound]
  constructor
  · exact fun h => h.2
  · intro h
    refine ⟨fun u hu hp => ?_, h⟩
    rw [Nat.zero_add]
    exact h u hu.isInfix hp

/-- In a squeezed list the counter does not pass one. -/
theorem countsBelow_squeezeFrom {bound : ℕ} (hbound : 1 < bound) (due : Bool) :
    CountsBelow p bound 0 (squeezeFrom p r due s) := by
  induction s generalizing due with
  | nil => trivial
  | cons c s ih =>
    rw [squeezeFrom]
    split_ifs with hc hdue
    · exact ih true
    · show CountsBelow p bound 0 (r :: c :: squeezeFrom p r false s)
      rw [CountsBelow, CountsBelow, CountsBelow, if_neg hc, if_neg hc]
      split_ifs
      · exact ⟨hbound, ih false⟩
      · exact ih false
    · show CountsBelow p bound 0 (c :: squeezeFrom p r false s)
      rw [CountsBelow, if_neg hc]
      exact ih false

theorem CountsBelow.dropWhile {bound : ℕ} (hbound : 0 < bound) (h : CountsBelow p bound 0 s) :
    CountsBelow p bound 0 (s.dropWhile p) := by
  rw [countsBelow_iff hbound] at h ⊢
  exact fun u hu => h u (hu.trans (List.dropWhile_suffix p).isInfix)

end Xkim
