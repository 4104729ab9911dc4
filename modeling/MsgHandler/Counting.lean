/-
MsgHandler/Counting.lean

What the counters of `io::IoSampling` say (`framework/io/io_sampling.{h,cpp}`).

The sampler keeps a total for the current hour and one word for each second and
each minute of it.  The words of the minutes are the first sixty words of the
seconds, so word `i` holds the calls in second `i` of the hour together with
those in minute `i` (`Tallies`).

Of these two the one that `getSample` does not ask for is mostly zero: when a
second after the first is counted, the minute with its number has not come yet.
But a minute is counted on top of the second with its number.  So a sample is
exact if and only if no call of the hour came in the second whose number is the
number of the current minute (`getSample_exact_iff`).
-/
import MsgHandler.Run
import MsgHandler.Sampling

namespace Xkim

namespace IoSampling

/-! ### Clock seconds, minutes and hours -/

/-- The number of the window of `w` seconds that a call falls into, by local
time. -/
def window (w now : ℤ) : ℤ := utcToLocal now / w

/-- The calls at the times `past` that fall into the same window as `now`. -/
def inWindow (w : ℤ) (past : List ℤ) (now : ℤ) : ℕ :=
  past.countP fun τ => window w τ = window w now

/-- The second of the hour. -/
def secondOf (now : ℤ) : ℤ := utcToLocal now % SECONDS_ONE_HOUR

/-- The minute of the hour. -/
def minuteOf (now : ℤ) : ℤ := secondOf now / 60

/-- A call falls into the hour of `now`, into its second `i`. -/
def InSecond (now i τ : ℤ) : Prop :=
  window SECONDS_ONE_HOUR τ = window SECONDS_ONE_HOUR now ∧ secondOf τ = i

/-- A call falls into the hour of `now`, into its minute `i`. -/
def InMinute (now i τ : ℤ) : Prop :=
  window SECONDS_ONE_HOUR τ = window SECONDS_ONE_HOUR now ∧ minuteOf τ = i

instance (now i τ : ℤ) : Decidable (InSecond now i τ) := inferInstanceAs (Decidable (_ ∧ _))

instance (now i τ : ℤ) : Decidable (InMinute now i τ) := inferInstanceAs (Decidable (_ ∧ _))

theorem secondOf_range (now : ℤ) : 0 ≤ secondOf now ∧ secondOf now < 3600 := by
  unfold secondOf SECONDS_ONE_HOUR
  omega

theorem minuteOf_range (now : ℤ) : 0 ≤ minuteOf now ∧ minuteOf now < 60 := by
  have := secondOf_range now
  unfold minuteOf
  omega

/-- The second and the hour determine the time. -/
theorem inSecond_self_iff {now τ : ℤ} :
    InSecond now (secondOf now) τ ↔ window 1 τ = window 1 now := by
  unfold InSecond window secondOf utcToLocal SECONDS_ONE_HOUR
  omega

theorem inMinute_self_iff {now τ : ℤ} :
    InMinute now (minuteOf now) τ ↔ window 60 τ = window 60 now := by
  unfold InMinute window minuteOf secondOf utcToLocal SECONDS_ONE_HOUR
  omega

/-- No call so far came in a minute whose number is that of the current second,
unless this is second zero; and then it came in second zero. -/
theorem inMinute_secondOf_iff {now τ : ℤ} (hτ : τ ≤ now) :
    InMinute now (secondOf now) τ ↔ secondOf now = 0 ∧ InSecond now 0 τ := by
  unfold InMinute InSecond window minuteOf secondOf utcToLocal SECONDS_ONE_HOUR
  omega

/-! ### What the words hold -/

/-- The array indices of `sample` and `getSample` at time `now`, into the
seconds and into the minutes. -/
def indices (S : IoSampling) (now : ℤ) : ℤ × ℤ :=
  let t := utcToLocal now
  let s := t - (S.fixSampleSpace t).currentHourBeginSecond
  (s, s.tdiv 60)

/-- The sampler after calls of `sample` at the times `past`, the last call of
any kind being at time `now`. -/
structure Tallies (S : IoSampling) (past : List ℤ) (now : ℤ) : Prop where
  epoch : 0 ≤ now
  before : ∀ τ ∈ past, τ ≤ now
  hour : S.currentHour = window SECONDS_ONE_HOUR now
  begins : S.currentHourBeginSecond = S.currentHour * SECONDS_ONE_HOUR
  total : S.total = inWindow SECONDS_ONE_HOUR past now % 2 ^ 32
  detail : ∀ i, S.detail i =
    (past.countP (fun τ => InSecond now i τ) + past.countP (fun τ => InMinute now i τ)) % 2 ^ 32

variable {S : IoSampling} {past : List ℤ} {now t : ℤ}

/-- The hour, as the code computes it. -/
theorem tdiv_hour (h : 0 ≤ now) :
    (utcToLocal now).tdiv SECONDS_ONE_HOUR = window SECONDS_ONE_HOUR now :=
  Int.tdiv_eq_ediv_of_nonneg (by unfold utcToLocal TIMEZONE_FIX_SECONDS; omega)

theorem Tallies.new (h : 0 ≤ now) : (IoSampling.new now).Tallies [] now where
  epoch := h
  before _ hτ := nomatch hτ
  hour := tdiv_hour h
  begins := rfl
  total := rfl
  detail _ := rfl

/-- **The record is brought up to date** at the first call in an hour. -/
theorem Tallies.fix (h : S.Tallies past now) (ht : now ≤ t) :
    (S.fixSampleSpace (utcToLocal t)).Tallies past t := by
  have hpos : 0 ≤ t := h.epoch.trans ht
  have hpast : ∀ τ ∈ past, τ ≤ t := fun τ hτ => (h.before τ hτ).trans ht
  have hdiv := tdiv_hour hpos
  by_cases hsame : window SECONDS_ONE_HOUR t = window SECONDS_ONE_HOUR now
  · -- in the same hour the windows are the same
    have hkeep : S.fixSampleSpace (utcToLocal t) = S :=
      if_neg (not_not.mpr (hdiv.trans (hsame.trans h.hour.symm)))
    rw [hkeep]
    refine ⟨hpos, hpast, h.hour.trans hsame.symm, h.begins, ?_, fun i => ?_⟩
    · rw [h.total, inWindow, inWindow, hsame]
    · have hsecond : ∀ τ, InSecond now i τ ↔ InSecond t i τ := fun τ => by
        rw [InSecond, InSecond, hsame]
      have hminute : ∀ τ, InMinute now i τ ↔ InMinute t i τ := fun τ => by
        rw [InMinute, InMinute, hsame]
      simp only [h.detail i, hsecond, hminute]
  · -- no call was made in an hour after the last one
    have hclear : S.fixSampleSpace (utcToLocal t) = cleared (window SECONDS_ONE_HOUR t) := by
      rw [← hdiv]
      refine if_pos ?_
      rw [hdiv, h.hour]
      exact hsame
    have hnone : ∀ τ ∈ past, window SECONDS_ONE_HOUR τ ≠ window SECONDS_ONE_HOUR t := by
      intro τ hτ
      have hle := h.before τ hτ
      unfold window utcToLocal SECONDS_ONE_HOUR at hsame ⊢
      omega
    have hzero : ∀ p : ℤ → Bool, (∀ τ, p τ = true →
        window SECONDS_ONE_HOUR τ = window SECONDS_ONE_HOUR t) → past.countP p = 0 :=
      fun p hp => List.countP_eq_zero.mpr fun τ hτ hpτ => hnone τ hτ (hp τ hpτ)
    rw [hclear]
    refine ⟨hpos, hpast, rfl, rfl, ?_, fun i => ?_⟩
    · rw [inWindow, hzero _ fun τ hτ => of_decide_eq_true hτ]
      rfl
    · rw [hzero _ fun τ hτ => (of_decide_eq_true hτ).1,
        hzero _ fun τ hτ => (of_decide_eq_true hτ).1]
      rfl

/-- In the hour of the sampler the indices are the second and the minute. -/
theorem Tallies.indices_eq (h : S.Tallies past now) (ht : now ≤ t) :
    S.indices t = (secondOf t, minuteOf t) := by
  have hfix := h.fix ht
  have hsecond : utcToLocal t - (S.fixSampleSpace (utcToLocal t)).currentHourBeginSecond =
      secondOf t := by
    rw [hfix.begins, hfix.hour]
    unfold window secondOf SECONDS_ONE_HOUR
    omega
  unfold indices
  dsimp only
  rw [hsecond, Int.tdiv_eq_ediv_of_nonneg (secondOf_range t).1]
  rfl

/-- What `getSample` answers. -/
theorem Tallies.getSample (h : S.Tallies past now) (ht : now ≤ t) :
    (S.getSample t).1 = ⟨(S.fixSampleSpace (utcToLocal t)).detail (secondOf t),
      (S.fixSampleSpace (utcToLocal t)).detail (minuteOf t),
      inWindow SECONDS_ONE_HOUR past t % 2 ^ 32⟩ := by
  have hindices := Prod.mk.inj (h.indices_eq ht)
  rw [← (h.fix ht).total, ← hindices.1, ← hindices.2]
  rfl

/-- `++detail[i].total` counts one more. -/
theorem bump_eq (detail : ℤ → ℕ) (i j : ℤ) :
    bump detail i j = if i = j then (detail j + 1) % 2 ^ 32 else detail j := by
  unfold bump
  rcases eq_or_ne i j with rfl | hne
  · rw [Function.update_self, if_pos rfl]
  · rw [Function.update_of_ne hne.symm, if_neg hne]

/-- **A call of `sample`** is counted in its second, its minute and its hour. -/
theorem Tallies.sample (h : S.Tallies past now) (ht : now ≤ t) :
    (S.sample t).Tallies (past ++ [t]) t := by
  have hfix := h.fix ht
  have hindices := Prod.mk.inj (h.indices_eq ht)
  have hdetail : (S.sample t).detail =
      bump (bump (S.fixSampleSpace (utcToLocal t)).detail (secondOf t)) (minuteOf t) := by
    rw [← hindices.1, ← hindices.2]
    rfl
  have htotal : (S.sample t).total =
      ((S.fixSampleSpace (utcToLocal t)).total + 1) % 2 ^ 32 := rfl
  refine ⟨hfix.epoch, ?_, hfix.hour, hfix.begins, ?_, fun i => ?_⟩
  · intro τ hτ
    rcases List.mem_append.mp hτ with hτ | hτ
    · exact hfix.before τ hτ
    · exact (List.mem_singleton.mp hτ).le
  · rw [htotal, hfix.total, inWindow, inWindow, List.countP_append]
    simp
  · have hcount : ∀ p : ℤ → Bool, (past ++ [t]).countP p =
        past.countP p + if p t then 1 else 0 := by
      intro p
      rw [List.countP_append, List.countP_singleton]
    rw [hdetail, bump_eq, bump_eq, hfix.detail i, hcount, hcount]
    simp only [InSecond, InMinute, true_and, decide_eq_true_eq]
    split_ifs <;> omega

/-! ### When a sample is exact -/

/-- The calls in the second of the hour whose number is that of the minute of
`now`: `getSample` adds them to the calls of this minute. -/
def shared (past : List ℤ) (now : ℤ) : ℕ := past.countP fun τ => InSecond now (minuteOf now) τ

/-- The minute with the number of the current second has not come yet; second
zero is the second that minute zero shares its word with. -/
theorem Tallies.ahead_le (h : S.Tallies past now) :
    past.countP (fun τ => InMinute now (secondOf now) τ) ≤ shared past now := by
  refine List.countP_mono_left fun τ hτ hmin => decide_eq_true ?_
  obtain ⟨hzero, hsec⟩ := (inMinute_secondOf_iff (h.before τ hτ)).mp (of_decide_eq_true hmin)
  have hminute : minuteOf now = 0 := by
    rw [minuteOf, hzero]
    rfl
  rw [hminute]
  exact hsec

theorem Tallies.detail_second (h : S.Tallies past now) :
    ∃ ahead ≤ shared past now,
      S.detail (secondOf now) = (inWindow 1 past now + ahead) % 2 ^ 32 := by
  refine ⟨_, h.ahead_le, ?_⟩
  rw [h.detail]
  simp only [inSecond_self_iff]
  rfl

theorem Tallies.detail_minute (h : S.Tallies past now) :
    S.detail (minuteOf now) = (inWindow 60 past now + shared past now) % 2 ^ 32 := by
  rw [h.detail, Nat.add_comm]
  simp only [inMinute_self_iff]
  rfl

theorem shared_eq_zero_iff :
    shared past now = 0 ↔ ∀ τ ∈ past, ¬ InSecond now (minuteOf now) τ := by
  rw [shared, List.countP_eq_zero]
  simp only [decide_eq_true_eq]

theorem inWindow_second_le : inWindow 1 past now ≤ inWindow 60 past now := by
  refine List.countP_mono_left fun τ _ h => decide_eq_true ?_
  have heq := of_decide_eq_true h
  unfold window at heq ⊢
  omega

theorem inWindow_minute_le : inWindow 60 past now ≤ inWindow SECONDS_ONE_HOUR past now := by
  refine List.countP_mono_left fun τ _ h => decide_eq_true ?_
  have heq := of_decide_eq_true h
  unfold window SECONDS_ONE_HOUR at *
  omega

theorem shared_le : shared past now ≤ inWindow SECONDS_ONE_HOUR past now :=
  List.countP_mono_left fun _ _ h => decide_eq_true (of_decide_eq_true h).1

/-- **What a sample says**: the three counts, with what other words add to the
first two, none of which is more than the count of the hour. -/
theorem Tallies.getSample_counts (h : S.Tallies past now) (ht : now ≤ t) :
    ∃ ahead ≤ shared past t,
      (S.getSample t).1 = ⟨(inWindow 1 past t + ahead) % 2 ^ 32,
        (inWindow 60 past t + shared past t) % 2 ^ 32,
        inWindow SECONDS_ONE_HOUR past t % 2 ^ 32⟩ ∧
      inWindow 1 past t ≤ inWindow SECONDS_ONE_HOUR past t ∧
      inWindow 60 past t ≤ inWindow SECONDS_ONE_HOUR past t ∧
      shared past t ≤ inWindow SECONDS_ONE_HOUR past t := by
  obtain ⟨ahead, hahead, hsecond⟩ := (h.fix ht).detail_second
  refine ⟨ahead, hahead, ?_, inWindow_second_le.trans inWindow_minute_le, inWindow_minute_le,
    shared_le⟩
  rw [h.getSample ht, hsecond, (h.fix ht).detail_minute]

/-- A sample is exact exactly if nothing is added to the count of the minute. -/
theorem Tallies.getSample_eq_iff (h : S.Tallies past now) (ht : now ≤ t)
    (hhour : inWindow SECONDS_ONE_HOUR past t < 2 ^ 32) :
    (S.getSample t).1 =
        ⟨inWindow 1 past t, inWindow 60 past t, inWindow SECONDS_ONE_HOUR past t⟩ ↔
      ∀ τ ∈ past, ¬ InSecond t (minuteOf t) τ := by
  obtain ⟨ahead, hahead, hsample, hsec, hmin, hshared⟩ := h.getSample_counts ht
  rw [hsample, ← shared_eq_zero_iff, Sample.mk.injEq]
  omega

/-- A sample never says less than was counted, as long as no word overflows. -/
theorem Tallies.le_getSample (h : S.Tallies past now) (ht : now ≤ t)
    (hhour : inWindow SECONDS_ONE_HOUR past t < 2 ^ 31) :
    inWindow 1 past t ≤ (S.getSample t).1.secTotal ∧
      inWindow 60 past t ≤ (S.getSample t).1.minTotal ∧
      inWindow SECONDS_ONE_HOUR past t = (S.getSample t).1.houTotal := by
  obtain ⟨ahead, hahead, hsample, hsec, hmin, hshared⟩ := h.getSample_counts ht
  rw [hsample]
  dsimp only
  omega

/-! ### Every run of a sampler -/

/-- A sampler with the times of the `sample` calls so far, and of the last
call. -/
structure Counter where
  sampling : IoSampling
  past : List ℤ
  now : ℤ

/-- The calls, with the time of the clock. -/
inductive Call
  | sample (now : ℤ)
  | getSample (now : ℤ)

namespace Counter

/-- The sampler is constructed. -/
def start (now : ℤ) : Counter := ⟨IoSampling.new now, [], now⟩

/-- A call; the clock does not go back. -/
def step (c : Counter) : Call → Option Counter
  | .sample now =>
    if c.now ≤ now then some ⟨c.sampling.sample now, c.past ++ [now], now⟩ else none
  | .getSample now =>
    if c.now ≤ now then some ⟨(c.sampling.getSample now).2, c.past, now⟩ else none

theorem step_tallies {c c' : Counter} {e : Call} (h : c.sampling.Tallies c.past c.now)
    (hstep : c.step e = some c') : c'.sampling.Tallies c'.past c'.now := by
  cases e with
  | sample now =>
    rw [step] at hstep
    split_ifs at hstep with hnow
    obtain rfl := Option.some.inj hstep
    exact h.sample hnow
  | getSample now =>
    rw [step] at hstep
    split_ifs at hstep with hnow
    obtain rfl := Option.some.inj hstep
    exact h.fix hnow

/-- **When a sample is exact.**  In every run the array indices are in range, and
a call of `getSample` returns the number of calls of `sample` in the current
second, minute and hour if and only if no call of this hour came in the second
whose number is that of the current minute. -/
theorem getSample_exact_iff (t₀ : ℤ) (ht₀ : 0 ≤ t₀) (calls : List Call) :
    Always step (fun c => ∀ now, c.now ≤ now →
      ((0 ≤ (c.sampling.indices now).1 ∧ (c.sampling.indices now).1 < 3600) ∧
        (0 ≤ (c.sampling.indices now).2 ∧ (c.sampling.indices now).2 < 60)) ∧
      (c.past.length < 2 ^ 32 →
        ((c.sampling.getSample now).1 = ⟨inWindow 1 c.past now, inWindow 60 c.past now,
            inWindow SECONDS_ONE_HOUR c.past now⟩ ↔
          ∀ τ ∈ c.past, ¬ InSecond now (minuteOf now) τ))) (start t₀) calls := by
  refine Always.of_guarded (fun c e c' h _ hstep => step_tallies h hstep) ?_
    (Tallies.new ht₀) (guarded_true _ _)
  intro c h now hnow
  rw [h.indices_eq hnow]
  refine ⟨⟨secondOf_range now, minuteOf_range now⟩, fun hlen => ?_⟩
  exact h.getSample_eq_iff hnow (List.countP_le_length.trans_lt hlen)

/-- Two calls in the second minute of an hour, and a sample. -/
theorem getSample_exact_second_minute :
    (runEvents step (start 0) [.sample 61, .sample 62]).map
      (fun c => (c.sampling.getSample 62).1) = some ⟨1, 2, 2⟩ := by
  have hrun : runEvents step (start 0) [.sample 61, .sample 62] =
      some ⟨((IoSampling.new 0).sample 61).sample 62, [61, 62], 62⟩ := rfl
  have hexact := ((getSample_exact_iff 0 (le_refl 0) _).last hrun 62 (le_refl 62)).2 (by decide)
  rw [hrun, Option.map_some, hexact.mpr (by decide)]
  decide

/-- **A sample that is not exact.**  Time 0 is the beginning of an hour.  A call in
its first second is counted twice in this second and in its minute; and a call in
its second 1 is counted in minute 1. -/
theorem getSample_shares_words :
    (runEvents step (start 0) [.sample 0]).map
      (fun c => ((c.sampling.getSample 0).1, inWindow 1 c.past 0, inWindow 60 c.past 0)) =
        some (⟨2, 2, 1⟩, 1, 1) ∧
    (runEvents step (start 0) [.sample 1]).map
      (fun c => ((c.sampling.getSample 60).1, inWindow 1 c.past 60, inWindow 60 c.past 60)) =
        some (⟨0, 1, 1⟩, 0, 0) := by
  decide +kernel

end Counter

end IoSampling

end Xkim
