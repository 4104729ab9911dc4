/-
MsgHandler/Limits.lean

How many frames a connection accepts (`framework/io/io_app_connection.cpp`,
`whenReceivedFrame`).

A frame is refused when a count of the sampler is over its limit, and counted
after it has been passed on.  So as long as no frame arrives when a count
stands at its limit, the limits are upper bounds for the frames accepted in
any second, minute and hour; a frame that arrives just then is accepted, and
its window holds one frame more than the limit (`always_bounded`).

The time is read three times for one frame, for the sample, for the message
and for the count, and the clock may move on in between.
-/
import MsgHandler.Counting
import MsgHandler.Isolation

namespace Xkim

open IoSampling

/-! ### Counting by windows -/

namespace IoSampling

variable {w : ℤ} {l l' : List ℤ} {t g : ℤ}

theorem window_mono (hw : 0 < w) (h : g ≤ t) : window w g ≤ window w t :=
  Int.ediv_le_ediv hw (by unfold utcToLocal; omega)

theorem inWindow_append (w : ℤ) (l : List ℤ) (g t : ℤ) :
    inWindow w (l ++ [g]) t = inWindow w l t + if window w g = window w t then 1 else 0 := by
  rw [inWindow, List.countP_append, List.countP_singleton]
  simp only [decide_eq_true_eq]
  rfl

theorem inWindow_congr (h : window w g = window w t) : inWindow w l g = inWindow w l t := by
  rw [inWindow, inWindow, h]

/-- What was before `t` is not in a window after the one of `t`. -/
theorem inWindow_eq_zero (hw : 0 < w) (hl : ∀ τ ∈ l, τ ≤ t) (h : window w t < window w g) :
    inWindow w l g = 0 := by
  refine List.countP_eq_zero.mpr fun τ hτ heq => ?_
  have hle := window_mono hw (hl τ hτ)
  have := of_decide_eq_true heq
  omega

/-- Times that come earlier, one by one, are not more in the last window. -/
theorem inWindow_le_of_earlier (hw : 0 < w) (h : List.Forall₂ (· ≤ ·) l l')
    (ht : ∀ τ ∈ l', τ ≤ t) : inWindow w l t ≤ inWindow w l' t := by
  induction h with
  | nil => exact le_refl _
  | @cons g τ l l' hle _ ih =>
    obtain ⟨hτ, hl'⟩ := List.forall_mem_cons.mp ht
    have hlow := window_mono hw hle
    have hhigh := window_mono hw hτ
    have hrest := ih hl'
    unfold inWindow at hrest ⊢
    rw [List.countP_cons, List.countP_cons]
    simp only [decide_eq_true_eq]
    split_ifs <;> omega

/-- **One more** in a window that is not full: `t` is not before the others, and
`g` is in the window of `t` or a later one. -/
theorem inWindow_append_le {n : ℤ} (hw : 0 < w) (hn : 0 < n) (hl : ∀ τ ∈ l, τ ≤ t) (hg : t ≤ g)
    (hroom : (inWindow w l t : ℤ) < n) (hle : ∀ u, (inWindow w l u : ℤ) ≤ n) (u : ℤ) :
    (inWindow w (l ++ [g]) u : ℤ) ≤ n := by
  rw [inWindow_append]
  split_ifs with hu
  · rcases (window_mono hw hg).eq_or_lt with hsame | hlater
    · rw [← inWindow_congr (hsame.trans hu)]
      omega
    · rw [← inWindow_congr hu, inWindow_eq_zero hw hl hlater]
      omega
  · exact hle u

end IoSampling

/-! ### A frame arrives -/

/-- The frame has the magic word and lies in its buffer. -/
def Arrival.WellFormed (f : Arrival) : Prop :=
  f.Genuine ∧ 0 ≤ f.size ∧ f.b + f.size ≤ f.mem.length

instance (f : Arrival) : Decidable f.WellFormed := inferInstanceAs (Decidable (_ ∧ _))

namespace AppWorld

variable {ω : Type} {w w' : AppWorld ω} {f : Arrival}

/-- The counts that are compared with the limits when a frame arrives. -/
def counts (w : AppWorld ω) (f : Arrival) : Sample := (w.conn.sampling.getSample (f.clock 0)).1

/-- The times at which messages were passed to the processor. -/
def passed (w : AppWorld ω) : List ℤ := w.processed.map fun x => x.2.genTime

/-- What a well-formed frame does to a connection that refuses it. -/
structure Refused (f : Arrival) (w w' : AppWorld ω) : Prop where
  exceeds : w.overLimit (w.counts f) = true
  limits : SameLimits w w'
  passed : w'.passed = w.passed
  sampling : w'.conn.sampling = (w.conn.sampling.getSample (f.clock 0)).2

/-- What it does to one that accepts it. -/
structure Accepted (f : Arrival) (w w' : AppWorld ω) : Prop where
  within : w.overLimit (w.counts f) = false
  limits : SameLimits w w'
  passed : w'.passed = w.passed ++ [f.clock 1]
  sampling : w'.conn.sampling = (w.conn.sampling.getSample (f.clock 0)).2.sample (f.clock 2)

/-- **The answer to a well-formed frame.** -/
theorem answer_cases (hf : f.WellFormed) :
    (∃ w', w.answer f = some (-1, w') ∧ Refused f w w') ∨
      ∃ w', w.answer f = some (0, w') ∧ Accepted f w w' := by
  obtain ⟨⟨hb, hmagic⟩, hsize⟩ := hf
  have hover : (w.onArrival f).getSample.2.overLimit (w.onArrival f).getSample.1 =
      w.overLimit (w.counts f) := rfl
  unfold answer whenReceivedFrame
  rw [if_pos hb, if_pos hmagic]
  dsimp only
  rw [hover]
  rcases hanswer : w.overLimit (w.counts f) with - | -
  · rw [if_neg Bool.false_ne_true, if_pos hsize]
    exact Or.inr ⟨_, rfl, hanswer, ⟨rfl, rfl, rfl⟩, List.map_append, rfl⟩
  · rw [if_pos rfl]
    exact Or.inl ⟨_, rfl, hanswer, ⟨rfl, rfl, rfl⟩, rfl, rfl⟩

/-- In no second, minute or hour more frames were accepted than the limit says. -/
def Bounded (w : AppWorld ω) : Prop :=
  ∀ t, (inWindow 1 w.passed t : ℤ) ≤ w.conn.secondLimit ∧
    (inWindow 60 w.passed t : ℤ) ≤ w.conn.minuteLimit ∧
    (inWindow SECONDS_ONE_HOUR w.passed t : ℤ) ≤ w.conn.hourLimit

/-- The limits have been set. -/
structure Limited (w : AppWorld ω) : Prop where
  second : IsLimit w.conn.secondLimit
  minute : IsLimit w.conn.minuteLimit
  hour : IsLimit w.conn.hourLimit

/-- A count stands at its limit when the frame arrives. -/
def AtLimit (w : AppWorld ω) (f : Arrival) : Prop :=
  ((w.counts f).secTotal : ℤ) = w.conn.secondLimit ∨
    ((w.counts f).minTotal : ℤ) = w.conn.minuteLimit ∨
    ((w.counts f).houTotal : ℤ) = w.conn.hourLimit

instance (w : AppWorld ω) (f : Arrival) : Decidable (w.AtLimit f) :=
  inferInstanceAs (Decidable (_ ∨ _ ∨ _))

/-- A count passes if it is not greater than its limit. -/
theorem Limited.overLimit_iff (h : w.Limited) (stat : Sample) :
    w.overLimit stat = false ↔ (stat.secTotal : ℤ) ≤ w.conn.secondLimit ∧
      (stat.minTotal : ℤ) ≤ w.conn.minuteLimit ∧ (stat.houTotal : ℤ) ≤ w.conn.hourLimit := by
  obtain ⟨⟨hs, hs'⟩, ⟨hm, hm'⟩, ⟨hh, hh'⟩⟩ := h
  simp only [overLimit, gt_iff_lt, Bool.or_eq_false_iff, decide_eq_false_iff_not, not_lt,
    toUInt32]
  omega

theorem Limited.of_same (h : w.Limited) (hsame : SameLimits w w') : w'.Limited := by
  obtain ⟨hsecond, hminute, hhour⟩ := hsame
  exact ⟨hsecond ▸ h.second, hminute ▸ h.minute, hhour ▸ h.hour⟩

end AppWorld

/-! ### Every sequence of frames -/

/-- A connection, with the times at which its sampler counted a frame, and at
which it was last used. -/
structure Metered (ω : Type) where
  world : AppWorld ω
  past : List ℤ
  now : ℤ

namespace Metered

open AppWorld

variable {ω : Type} {s s' : Metered ω} {f : Arrival}

/-- The clock does not go back. -/
def Timely (s : Metered ω) (f : Arrival) : Prop :=
  s.now ≤ f.clock 0 ∧ f.clock 0 ≤ f.clock 1 ∧ f.clock 1 ≤ f.clock 2

instance (s : Metered ω) (f : Arrival) : Decidable (s.Timely f) :=
  inferInstanceAs (Decidable (_ ∧ _ ∧ _))

/-- A well-formed frame arrives. -/
def step (s : Metered ω) (f : Arrival) : Option (Metered ω) :=
  if f.WellFormed ∧ s.Timely f then
    (s.world.answer f).map fun r =>
      if r.1 = 0 then ⟨r.2, s.past ++ [f.clock 2], f.clock 2⟩ else ⟨r.2, s.past, f.clock 0⟩
  else none

/-- A connection that has just been constructed and initialised. -/
def start (now : ℤ) (limits : ℤ × ℤ × ℤ) (io : ℤ) (id : ℕ) (H : Heap)
    (collector : Option MsMessageBlockQueue) (clock : ℕ → ℤ) (o : ω) : Metered ω where
  world := AppWorld.start { IoAppConnection.new now with
    secondLimit := limits.1
    minuteLimit := limits.2.1
    hourLimit := limits.2.2 } io id H collector clock o
  past := []
  now := now

/-- What a frame does. -/
theorem step_cases (h : s.step f = some s') :
    s.Timely f ∧
      ((Refused f s.world s'.world ∧ s'.past = s.past ∧ s'.now = f.clock 0) ∨
        (Accepted f s.world s'.world ∧ s'.past = s.past ++ [f.clock 2] ∧
          s'.now = f.clock 2)) := by
  rw [step] at h
  split_ifs at h with hf
  obtain ⟨hform, htime⟩ := hf
  refine ⟨htime, ?_⟩
  rcases answer_cases (w := s.world) hform with ⟨w', hanswer, href⟩ | ⟨w', hanswer, hacc⟩
  · rw [hanswer] at h
    obtain rfl := Option.some.inj h
    exact Or.inl ⟨href, rfl, rfl⟩
  · rw [hanswer] at h
    obtain rfl := Option.some.inj h
    exact Or.inr ⟨hacc, rfl, rfl⟩

/-- The frames accepted are those counted, and the counts were never over the
limit of the hour. -/
structure Inv (s : Metered ω) : Prop where
  tallies : s.world.conn.sampling.Tallies s.past s.now
  limited : s.world.Limited
  earlier : List.Forall₂ (· ≤ ·) s.world.passed s.past
  before : ∀ g ∈ s.world.passed, g ≤ s.now
  hours : ∀ t, (inWindow SECONDS_ONE_HOUR s.past t : ℤ) ≤ s.world.conn.hourLimit
  bounded : s.world.Bounded

/-- No count stands at its limit, unless another is over its limit. -/
def Allowed (s : Metered ω) (f : Arrival) : Prop :=
  s.world.AtLimit f → s.world.overLimit (s.world.counts f) = true

instance (s : Metered ω) (f : Arrival) : Decidable (s.Allowed f) :=
  inferInstanceAs (Decidable (_ → _))

/-- A frame that is accepted finds its windows below their limits. -/
theorem Inv.room (h : Inv s) (htime : s.Timely f) (hacc : Accepted f s.world s'.world)
    (hallowed : s.Allowed f) :
    (inWindow 1 s.past (f.clock 0) : ℤ) < s.world.conn.secondLimit ∧
      (inWindow 60 s.past (f.clock 0) : ℤ) < s.world.conn.minuteLimit ∧
      (inWindow SECONDS_ONE_HOUR s.past (f.clock 0) : ℤ) < s.world.conn.hourLimit := by
  have hnot : ¬ s.world.AtLimit f := by
    intro hat
    have := hallowed hat
    rw [hacc.within] at this
    cases this
  have hcounts := (h.limited.overLimit_iff _).mp hacc.within
  have hsmall : inWindow SECONDS_ONE_HOUR s.past (f.clock 0) < 2 ^ 31 := by
    have := h.hours (f.clock 0)
    have := h.limited.hour.2
    omega
  obtain ⟨hsec, hmin, hhour⟩ := h.tallies.le_getSample htime.1 hsmall
  rw [AtLimit, not_or, not_or] at hnot
  unfold counts at hnot hcounts
  omega

theorem inv_start {now : ℤ} (hnow : 0 ≤ now) {limits : ℤ × ℤ × ℤ}
    (hlimits : IsLimit limits.1 ∧ IsLimit limits.2.1 ∧ IsLimit limits.2.2) (io : ℤ) (id : ℕ)
    (H : Heap) (collector : Option MsMessageBlockQueue) (clock : ℕ → ℤ) (o : ω) :
    Inv (start now limits io id H collector clock o) := by
  obtain ⟨hsecond, hminute, hhour⟩ := hlimits
  refine ⟨Tallies.new hnow, ⟨hsecond, hminute, hhour⟩, List.Forall₂.nil, ?_, ?_, ?_⟩
  · exact fun _ hg => nomatch hg
  · exact fun _ => hhour.1.le
  · exact fun _ => ⟨hsecond.1.le, hminute.1.le, hhour.1.le⟩

theorem Inv.refused (h : Inv s) (htime : s.Timely f) (href : Refused f s.world s'.world)
    (hpast : s'.past = s.past) (hnow : s'.now = f.clock 0) : Inv s' := by
  obtain ⟨-, hlimits, hpassed, hsampling⟩ := href
  refine ⟨?_, h.limited.of_same hlimits, ?_, ?_, ?_, ?_⟩
  · rw [hsampling, hpast, hnow]
    exact h.tallies.fix htime.1
  · rw [hpassed, hpast]
    exact h.earlier
  · rw [hpassed, hnow]
    exact fun g hg => (h.before g hg).trans htime.1
  · rw [hpast, hlimits.hour]
    exact h.hours
  · rw [Bounded, hpassed, hlimits.second, hlimits.minute, hlimits.hour]
    exact h.bounded

/-- **An accepted frame** leaves its windows within their limits. -/
theorem Inv.accepted (h : Inv s) (htime : s.Timely f) (hacc : Accepted f s.world s'.world)
    (hpast : s'.past = s.past ++ [f.clock 2]) (hnow : s'.now = f.clock 2)
    (hallowed : s.Allowed f) : Inv s' := by
  obtain ⟨hsec, hmin, hhour⟩ := h.room htime hacc hallowed
  obtain ⟨-, hlimits, hpassed, hsampling⟩ := hacc
  obtain ⟨htime₀, htime₁, htime₂⟩ := htime
  have hbefore : ∀ g ∈ s.world.passed, g ≤ f.clock 0 := fun g hg => (h.before g hg).trans htime₀
  have hcounted : ∀ τ ∈ s.past, τ ≤ f.clock 0 := fun τ hτ => (h.tallies.before τ hτ).trans htime₀
  have hle : ∀ {w : ℤ}, 0 < w →
      inWindow w s.world.passed (f.clock 0) ≤ inWindow w s.past (f.clock 0) :=
    fun hw => inWindow_le_of_earlier hw h.earlier hcounted
  refine ⟨?_, h.limited.of_same hlimits, ?_, ?_, ?_, ?_⟩
  · rw [hsampling, hpast, hnow]
    exact (h.tallies.fix htime₀).sample (htime₁.trans htime₂)
  · rw [hpassed, hpast]
    exact List.rel_append h.earlier (List.Forall₂.cons htime₂ List.Forall₂.nil)
  · rw [hpassed, hnow]
    intro g hg
    rcases List.mem_append.mp hg with hg | hg
    · exact (hbefore g hg).trans (htime₁.trans htime₂)
    · rw [List.mem_singleton.mp hg]
      exact htime₂
  · rw [hpast, hlimits.hour]
    exact inWindow_append_le (by decide) h.limited.hour.1 hcounted (htime₁.trans htime₂) hhour
      h.hours
  · rw [Bounded, hpassed, hlimits.second, hlimits.minute, hlimits.hour]
    intro t
    have hroom : ∀ {w n : ℤ}, 0 < w → (inWindow w s.past (f.clock 0) : ℤ) < n →
        (inWindow w s.world.passed (f.clock 0) : ℤ) < n :=
      fun hw hn => lt_of_le_of_lt (Int.ofNat_le.mpr (hle hw)) hn
    refine ⟨?_, ?_, ?_⟩
    · exact inWindow_append_le one_pos h.limited.second.1 hbefore htime₁ (hroom one_pos hsec)
        (fun u => (h.bounded u).1) t
    · exact inWindow_append_le (by decide) h.limited.minute.1 hbefore htime₁
        (hroom (by decide) hmin) (fun u => (h.bounded u).2.1) t
    · exact inWindow_append_le (by decide) h.limited.hour.1 hbefore htime₁
        (hroom (by decide) hhour) (fun u => (h.bounded u).2.2) t

theorem Inv.step (h : Inv s) (hallowed : s.Allowed f) (hstep : s.step f = some s') : Inv s' := by
  obtain ⟨htime, ⟨href, hpast, hnow⟩ | ⟨hacc, hpast, hnow⟩⟩ := step_cases hstep
  · exact h.refused htime href hpast hnow
  · exact h.accepted htime hacc hpast hnow hallowed

/-! ### Frames that the sampler counts exactly -/

/-- The sample is exact when the frame arrives (see `Counting`), and the clock does
not move on while it is handled. -/
def Exact (s : Metered ω) (f : Arrival) : Prop :=
  (f.clock 1 = f.clock 0 ∧ f.clock 2 = f.clock 0) ∧
    ∀ g ∈ s.world.passed, ¬ InSecond (f.clock 0) (minuteOf (f.clock 0)) g

instance (s : Metered ω) (f : Arrival) : Decidable (s.Exact f) :=
  inferInstanceAs (Decidable (_ ∧ ∀ g ∈ s.world.passed, _))

/-- When every frame is counted exactly, the frames are counted when they are
accepted. -/
theorem passed_eq_past (hpassed : s.world.passed = s.past) (hexact : s.Exact f)
    (hstep : s.step f = some s') : s'.world.passed = s'.past := by
  obtain ⟨-, ⟨href, hpast, -⟩ | ⟨hacc, hpast, -⟩⟩ := step_cases hstep
  · rw [href.passed, hpast, hpassed]
  · rw [hacc.passed, hpast, hpassed, hexact.1.1, hexact.1.2]

/-- **A frame that arrives at the limit** is one too many, if it is not
refused. -/
theorem Inv.allowed (h : Inv s) (hpassed : s.world.passed = s.past) (hexact : s.Exact f)
    (hstep : s.step f = some s') (hbounded : s'.world.Bounded) : s.Allowed f := by
  obtain ⟨htime, ⟨href, -, -⟩ | ⟨hacc, -, -⟩⟩ := step_cases hstep
  · exact fun _ => href.exceeds
  · intro hat
    exfalso
    have hsmall : inWindow SECONDS_ONE_HOUR s.past (f.clock 0) < 2 ^ 32 := by
      have := h.hours (f.clock 0)
      have := h.limited.hour.2
      omega
    have hsample := (h.tallies.getSample_eq_iff htime.1 hsmall).mpr (hpassed ▸ hexact.2)
    have hafter := hbounded (f.clock 0)
    rw [hacc.passed, hacc.limits.second, hacc.limits.minute, hacc.limits.hour, hexact.1.1,
      inWindow_append, inWindow_append, inWindow_append, if_pos rfl, if_pos rfl, if_pos rfl,
      hpassed] at hafter
    unfold AtLimit counts at hat
    rw [hsample] at hat
    dsimp only at hat
    omega

/-- **The limits as upper bounds.**  They are kept, in every window of every
sequence of frames, if no frame arrives when a count stands at its limit, unless
another count is over its limit; and where the sampler counts exactly, only
then. -/
theorem always_bounded {now : ℤ} (hnow : 0 ≤ now) {limits : ℤ × ℤ × ℤ}
    (hlimits : IsLimit limits.1 ∧ IsLimit limits.2.1 ∧ IsLimit limits.2.2) (io : ℤ) (id : ℕ)
    (H : Heap) (collector : Option MsMessageBlockQueue) (clock : ℕ → ℤ) (o : ω)
    (fs : List Arrival) :
    (Guarded step Allowed (start now limits io id H collector clock o) fs →
      Always step (fun s => s.world.Bounded) (start now limits io id H collector clock o) fs) ∧
    (Guarded step Exact (start now limits io id H collector clock o) fs →
      (Always step (fun s => s.world.Bounded) (start now limits io id H collector clock o) fs ↔
        Guarded step Allowed (start now limits io id H collector clock o) fs)) := by
  have hinv := inv_start hnow hlimits io id H collector clock o
  refine ⟨?_, ?_⟩
  · exact Always.of_guarded (fun s f s' h hallowed hstep => h.step hallowed hstep)
      (fun s h => h.bounded) hinv
  · refine always_iff_guarded (I := fun s => Inv s ∧ s.world.passed = s.past) ?_
      (fun s h => h.1.bounded) ?_ ⟨hinv, rfl⟩
    · rintro s f s' ⟨h, hpassed⟩ hexact hallowed hstep
      exact ⟨h.step hallowed hstep, passed_eq_past hpassed hexact hstep⟩
    · rintro s f s' ⟨h, hpassed⟩ hexact hstep hbounded
      exact h.allowed hpassed hexact hstep hbounded

/-- Two frames in one minute, below the limits. -/
theorem always_bounded_two_frames :
    Always step (fun s : Metered Unit => s.world.Bounded)
      (start 0 (2, 3, 4) 0 1 Heap.empty none (fun _ => 0) ())
      [⟨IoApp.emptyFrame, 0, 8, fun _ => 61⟩, ⟨IoApp.emptyFrame, 0, 8, fun _ => 61⟩] :=
  (always_bounded (le_refl 0) (by decide) 0 1 Heap.empty none (fun _ => 0) () _).1
    (by decide +kernel)

/-- **One frame too many.**  With all limits 1, two frames of one second are both
passed to the processor; the third is refused. -/
theorem one_frame_too_many :
    (runEvents step (start 0 (1, 1, 1) 0 1 Heap.empty none (fun _ => 0) ())
      [⟨IoApp.emptyFrame, 0, 8, fun _ => 61⟩, ⟨IoApp.emptyFrame, 0, 8, fun _ => 61⟩,
        ⟨IoApp.emptyFrame, 0, 8, fun _ => 61⟩]).map
      (fun s => (inWindow 1 s.world.passed 61, inWindow 60 s.world.passed 61,
        inWindow SECONDS_ONE_HOUR s.world.passed 61)) = some (2, 2, 2) := by
  decide +kernel

end Metered

end Xkim
