/-
MsgHandler/Isolation.lean

What the traffic of one client has to do with the limits of another.

A connection object counts the frames it accepts, by second, minute and hour,
and `whenReceivedFrame` rejects a frame when a count is over its limit.  When a
connection is closed the object goes to the cache, and `newConnection` uses it
again for another client.  `initialize` sets the members of a connection, but
not `_sampling`: the counts of the client before stay until a frame arrives in
another hour.

So the answers to a client depend on its own frames and the limits alone
exactly if the object comes with a count of zero, or if the first frame
arrives in another hour than the one the object last counted in
(`always_isolated_iff`).
-/
import MsgHandler.Accounting

namespace Xkim

/-! ### The answers to a client -/

/-- A call `whenReceivedFrame(mem + b, size)`, and the times that it reads. -/
structure Arrival where
  mem : List UInt8
  b : ℤ
  size : ℤ
  clock : ℕ → ℤ

namespace Arrival

/-- The frame has the magic word. -/
def Genuine (f : Arrival) : Prop :=
  (0 ≤ f.b ∧ f.b + 8 ≤ f.mem.length) ∧ hostInt (f.mem.drop f.b.toNat) 1 = magic

instance (f : Arrival) : Decidable f.Genuine := inferInstanceAs (Decidable (_ ∧ _))

/-- The local time at which the frame arrives. -/
def arrival (f : Arrival) : ℤ := IoSampling.utcToLocal (f.clock 0)

/-- The first frame with the magic word. -/
def first (fs : List Arrival) : Option Arrival := fs.find? fun f => f.Genuine

theorem first_of_genuine {f : Arrival} (hf : f.Genuine) (fs : List Arrival) :
    first (f :: fs) = some f :=
  List.find?_cons_of_pos (p := fun f : Arrival => decide f.Genuine) (decide_eq_true hf)

theorem first_of_not_genuine {f : Arrival} (hf : ¬ f.Genuine) (fs : List Arrival) :
    first (f :: fs) = first fs :=
  List.find?_cons_of_neg (p := fun f : Arrival => decide f.Genuine) (by simpa using hf)

end Arrival

namespace AppWorld

variable {ω ω' : Type} {w u : AppWorld ω} {w' u' : AppWorld ω'} {f : Arrival}

/-- The connection when a frame arrives. -/
def onArrival (f : Arrival) (w : AppWorld ω) : AppWorld ω :=
  { w with clock := f.clock, tick := 0 }

/-- The answer to a frame, at the times that the call reads. -/
def answer (f : Arrival) (w : AppWorld ω) : Option (ℤ × AppWorld ω) :=
  whenReceivedFrame f.mem f.b f.size (w.onArrival f)

/-- The answers to the frames of a connection, one after the other; `none` is
a call that reads outside its buffer. -/
def receive : List Arrival → AppWorld ω → List (Option ℤ)
  | [], _ => []
  | f :: fs, w =>
    match w.answer f with
    | none => [none]
    | some r => some r.1 :: receive fs r.2

/-- The same limits. -/
structure SameLimits (w : AppWorld ω) (w' : AppWorld ω') : Prop where
  second : w'.conn.secondLimit = w.conn.secondLimit
  minute : w'.conn.minuteLimit = w.conn.minuteLimit
  hour : w'.conn.hourLimit = w.conn.hourLimit

theorem SameLimits.overLimit (h : SameLimits w w') (stat : Sample) :
    w'.overLimit stat = w.overLimit stat := by
  unfold AppWorld.overLimit
  rw [h.second, h.minute, h.hour]

/-- Two connections give the same answer to a frame; only a frame with the magic
word is counted, and then they have the same counts after it. -/
structure SameAnswer (f : Arrival) (w u : AppWorld ω) (w' u' : AppWorld ω') : Prop where
  limits : SameLimits u u'
  counted : f.Genuine → u'.conn.sampling = u.conn.sampling
  ignored : ¬ f.Genuine → u.conn.sampling = w.conn.sampling ∧ u'.conn.sampling = w'.conn.sampling

/-- A sample is taken from the counts of the hour. -/
theorem getSample_onArrival
    (hcounts : w'.conn.sampling.fixSampleSpace f.arrival =
      w.conn.sampling.fixSampleSpace f.arrival) :
    (w'.onArrival f).getSample.1 = (w.onArrival f).getSample.1 ∧
      (w'.onArrival f).getSample.2.conn.sampling = (w.onArrival f).getSample.2.conn.sampling := by
  unfold Arrival.arrival at hcounts
  simp only [onArrival, getSample, IoSampling.getSample, hcounts, and_self]

/-- **An answer** depends on the limits and on the counts of the hour. -/
theorem SameLimits.answer (h : SameLimits w w')
    (hcounts : f.Genuine → w'.conn.sampling.fixSampleSpace f.arrival =
      w.conn.sampling.fixSampleSpace f.arrival) :
    (w.answer f = none ∧ w'.answer f = none) ∨
    ∃ ret u u', w.answer f = some (ret, u) ∧ w'.answer f = some (ret, u') ∧
      SameAnswer f w u w' u' := by
  unfold AppWorld.answer whenReceivedFrame
  by_cases hb : 0 ≤ f.b ∧ f.b + 8 ≤ f.mem.length
  · rw [if_pos hb, if_pos hb]
    by_cases hmagic : hostInt (f.mem.drop f.b.toNat) 1 = magic
    · rw [if_pos hmagic, if_pos hmagic]
      have hf : f.Genuine := ⟨hb, hmagic⟩
      obtain ⟨hstat, hsampling⟩ := getSample_onArrival (hcounts hf)
      have hlimits : SameLimits (w.onArrival f).getSample.2 (w'.onArrival f).getSample.2 :=
        ⟨h.second, h.minute, h.hour⟩
      dsimp only
      rw [hstat, hlimits.overLimit]
      split
      · exact Or.inr ⟨_, _, _, rfl, rfl, hlimits, fun _ => hsampling, fun hnot => absurd hf hnot⟩
      · split
        · refine Or.inr ⟨_, _, _, rfl, rfl, ⟨h.second, h.minute, h.hour⟩, ?_,
            fun hnot => absurd hf hnot⟩
          exact fun _ => congrArg (IoSampling.sample · (f.clock 2)) hsampling
        · exact Or.inl ⟨rfl, rfl⟩
    · rw [if_neg hmagic, if_neg hmagic]
      exact Or.inr ⟨_, _, _, rfl, rfl, ⟨h.second, h.minute, h.hour⟩,
        fun hf => absurd hf.2 hmagic, fun _ => ⟨rfl, rfl⟩⟩
  · rw [if_neg hb, if_neg hb]
    exact Or.inl ⟨rfl, rfl⟩

/-- **The answers** to a client depend on the limits, and on the counts of the
hour in which it sends its first frame. -/
theorem SameLimits.receive {fs : List Arrival} (h : SameLimits w w')
    (hcounts : ∀ f ∈ Arrival.first fs, w'.conn.sampling.fixSampleSpace f.arrival =
      w.conn.sampling.fixSampleSpace f.arrival) : w'.receive fs = w.receive fs := by
  induction fs generalizing w w' with
  | nil => rfl
  | cons f fs ih =>
    have hone := h.answer (f := f) fun hf => hcounts f (Arrival.first_of_genuine hf fs)
    rcases hone with ⟨hw, hw'⟩ | ⟨ret, u, u', hw, hw', hsame⟩
    · simp only [AppWorld.receive, hw, hw']
    · simp only [AppWorld.receive, hw, hw']
      refine congrArg (_ :: ·) (ih hsame.limits ?_)
      intro g hg
      by_cases hf : f.Genuine
      · rw [hsame.counted hf]
      · obtain ⟨hu, hu'⟩ := hsame.ignored hf
        rw [hu, hu']
        exact hcounts g (by rwa [Arrival.first_of_not_genuine hf])

end AppWorld

/-! ### What the counts of an object can be -/

namespace IoSampling

/-- The counts of a sampler that has only been used at times after the epoch,
behind a limit that is an `int`. -/
structure Sane (S : IoSampling) : Prop where
  hour : 0 ≤ S.currentHour
  begins : S.currentHourBeginSecond = S.currentHour * SECONDS_ONE_HOUR
  small : S.total ≤ 2 ^ 31
  zero : S.total = 0 → S.detail = fun _ => 0

variable {S : IoSampling}

theorem Sane.cleared {hour : ℤ} (h : 0 ≤ hour) : (cleared hour).Sane :=
  ⟨h, rfl, Nat.zero_le _, fun _ => rfl⟩

/-- A sampler that has counted nothing is as good as new. -/
theorem Sane.eq_cleared (h : S.Sane) (hzero : S.total = 0) :
    S = IoSampling.cleared S.currentHour := by
  have hdetail := h.zero hzero
  have hbegins := h.begins
  obtain ⟨total, detail, hour, begins⟩ := S
  dsimp only at hzero hdetail hbegins
  rw [hzero, hdetail, hbegins]
  rfl

theorem hour_nonneg {now : ℤ} (h : 0 ≤ now) : 0 ≤ (utcToLocal now).tdiv SECONDS_ONE_HOUR :=
  Int.tdiv_nonneg (by unfold utcToLocal TIMEZONE_FIX_SECONDS; omega) (by decide)

theorem Sane.new {now : ℤ} (h : 0 ≤ now) : (IoSampling.new now).Sane := Sane.cleared (hour_nonneg h)

theorem Sane.fixSampleSpace {now : ℤ} (h : S.Sane) (hnow : 0 ≤ now) :
    (S.fixSampleSpace (utcToLocal now)).Sane := by
  unfold IoSampling.fixSampleSpace
  dsimp only
  split
  · exact Sane.cleared (hour_nonneg hnow)
  · exact h

/-- Another hour starts from zero. -/
theorem fixSampleSpace_of_ne {loc : ℤ} (h : loc.tdiv SECONDS_ONE_HOUR ≠ S.currentHour) :
    S.fixSampleSpace loc = IoSampling.cleared (loc.tdiv SECONDS_ONE_HOUR) :=
  if_pos h

theorem fixSampleSpace_of_eq {loc : ℤ} (h : loc.tdiv SECONDS_ONE_HOUR = S.currentHour) :
    S.fixSampleSpace loc = S :=
  if_neg (not_not.mpr h)

/-- So does an hour in which nothing was counted. -/
theorem fixSampleSpace_cleared (hour loc : ℤ) :
    (IoSampling.cleared hour).fixSampleSpace loc =
      IoSampling.cleared (loc.tdiv SECONDS_ONE_HOUR) := by
  by_cases h : loc.tdiv SECONDS_ONE_HOUR = hour
  · rw [h]
    exact fixSampleSpace_of_eq h
  · exact fixSampleSpace_of_ne h

/-- In the hour of the sampler. -/
theorem getSample_of_hour {now : ℤ}
    (h : (utcToLocal now).tdiv SECONDS_ONE_HOUR = S.currentHour) : (S.getSample now).2 = S :=
  fixSampleSpace_of_eq h

theorem houTotal_sample {now : ℤ}
    (h : (utcToLocal now).tdiv SECONDS_ONE_HOUR = S.currentHour) :
    ((S.sample now).getSample now).1.houTotal = (S.total + 1) % 2 ^ 32 := by
  have hsample : (S.sample now).fixSampleSpace (utcToLocal now) = S.sample now :=
    fixSampleSpace_of_eq (S.sample_currentHour now).symm
  show ((S.sample now).fixSampleSpace (utcToLocal now)).total = _
  rw [hsample]
  show ((S.fixSampleSpace (utcToLocal now)).total + 1) % 2 ^ 32 = _
  rw [fixSampleSpace_of_eq h]

/-- Sampling counts a frame that was not over the limit. -/
theorem Sane.sample {now : ℤ} (h : S.Sane) (hnow : 0 ≤ now)
    (htotal : (S.fixSampleSpace (utcToLocal now)).total < 2 ^ 31) : (S.sample now).Sane := by
  have hfix := h.fixSampleSpace hnow
  have hnext : (S.sample now).total = (S.fixSampleSpace (utcToLocal now)).total + 1 :=
    Nat.mod_eq_of_lt (by omega)
  refine ⟨hfix.hour, hfix.begins, ?_, ?_⟩
  · rw [hnext]
    exact htotal
  · rw [hnext]
    intro hzero
    cases hzero

end IoSampling

/-- An `int` above zero, as the setters of the limits assert. -/
def IsLimit (n : ℤ) : Prop := 0 < n ∧ n < 2 ^ 31

instance (n : ℤ) : Decidable (IsLimit n) := inferInstanceAs (Decidable (_ ∧ _))

namespace AppWorld

variable {ω : Type} {w w' w'' : AppWorld ω}

/-- The counts and the limits are as before. -/
structure Uncounted (w w' : AppWorld ω) : Prop where
  clock : w'.clock = w.clock
  sampling : w'.conn.sampling = w.conn.sampling
  limits : SameLimits w w'

theorem Uncounted.refl (w : AppWorld ω) : Uncounted w w := ⟨rfl, rfl, rfl, rfl, rfl⟩

theorem Uncounted.trans (h : Uncounted w w') (h' : Uncounted w' w'') : Uncounted w w'' :=
  ⟨h'.clock.trans h.clock, h'.sampling.trans h.sampling, h'.limits.second.trans h.limits.second,
    h'.limits.minute.trans h.limits.minute, h'.limits.hour.trans h.limits.hour⟩

/-- Closing a connection leaves the counts as they are. -/
theorem Uncounted.whenClosed (w : AppWorld ω) : Uncounted w w.whenClosed := by
  have hback : Uncounted w w.takeBack := by
    unfold AppWorld.takeBack
    split <;> exact ⟨rfl, rfl, rfl, rfl, rfl⟩
  refine hback.trans ?_
  show Uncounted w.takeBack w.takeBack.handOver
  unfold AppWorld.handOver
  split
  · exact Uncounted.refl _
  · split <;> exact ⟨rfl, rfl, rfl, rfl, rfl⟩

/-- **Only frames are counted.** -/
theorem uncountedRule (destroy : ℕ → ω → ω) : AppRule destroy Uncounted where
  refl := Uncounted.refl
  trans := Uncounted.trans
  pendingPushData _ _ := ⟨rfl, rfl, rfl, rfl, rfl⟩
  whenClosed := Uncounted.whenClosed
  whenDestroy _ := ⟨rfl, rfl, rfl, rfl, rfl⟩
  getPushData _ := ⟨rfl, rfl, rfl, rfl, rfl⟩
  destroyMsgData _ _ := ⟨rfl, rfl, rfl, rfl, rfl⟩
  setWpos _ _ _ := ⟨rfl, rfl, rfl, rfl, rfl⟩

/-- What the members of a connection do to its counts. -/
structure Counts (w w' : AppWorld ω) : Prop where
  clock : w'.clock = w.clock
  limit : w'.conn.hourLimit = w.conn.hourLimit
  sane : (∀ k, 0 ≤ w.clock k) → 0 ≤ w.conn.hourLimit → w.conn.hourLimit < 2 ^ 31 →
    w.conn.sampling.Sane → w'.conn.sampling.Sane

theorem Uncounted.counts (h : Uncounted w w') : Counts w w' := by
  refine ⟨h.clock, h.limits.hour, ?_⟩
  rw [h.sampling]
  exact fun _ _ _ hsane => hsane

theorem Counts.trans (h : Counts w w') (h' : Counts w' w'') : Counts w w'' := by
  refine ⟨h'.clock.trans h.clock, h'.limit.trans h.limit, ?_⟩
  intro hclock hpos hlimit hsane
  exact h'.sane (h.clock ▸ hclock) (h.limit ▸ hpos) (h.limit ▸ hlimit)
    (h.sane hclock hpos hlimit hsane)

theorem countsRule (destroy : ℕ → ω → ω) : AppRule destroy Counts where
  refl w := (Uncounted.refl w).counts
  trans := Counts.trans
  pendingPushData d w := ((uncountedRule destroy).pendingPushData d w).counts
  whenClosed w := (Uncounted.whenClosed w).counts
  whenDestroy w := ((uncountedRule destroy).whenDestroy w).counts
  getPushData w := ((uncountedRule destroy).getPushData w).counts
  destroyMsgData d w := ((uncountedRule destroy).destroyMsgData d w).counts
  setWpos d n w := ((uncountedRule destroy).setWpos d n w).counts

/-- The hour's total of a connection within its limits. -/
theorem not_overLimit_total {stat : Sample} (h : ¬ w.overLimit stat = true)
    (hpos : 0 ≤ w.conn.hourLimit) (hlimit : w.conn.hourLimit < 2 ^ 31) :
    stat.houTotal < 2 ^ 31 := by
  simp only [overLimit, gt_iff_lt, Bool.or_eq_true, decide_eq_true_eq, not_or, not_lt,
    toUInt32] at h
  omega

/-- A frame is counted after it has passed the limits. -/
theorem Counts.whenReceivedFrame {mem : List UInt8} {b size r : ℤ}
    (h : AppWorld.whenReceivedFrame mem b size w = some (r, w')) : Counts w w' := by
  have hget : Counts w w.getSample.2 := ⟨rfl, rfl, fun hclock _ _ hsane =>
    hsane.fixSampleSpace (hclock w.tick)⟩
  unfold AppWorld.whenReceivedFrame at h
  split at h
  · split at h
    · dsimp only at h
      split at h
      · obtain ⟨-, rfl⟩ := Prod.mk.inj (Option.some.inj h)
        exact hget
      · rename_i hover
        split at h
        · obtain ⟨-, rfl⟩ := Prod.mk.inj (Option.some.inj h)
          refine ⟨rfl, rfl, ?_⟩
          intro hclock hpos hlimit hsane
          refine (hget.sane hclock hpos hlimit hsane).sample (hclock _) ?_
          -- the clock may have moved to the next hour
          unfold IoSampling.fixSampleSpace
          dsimp only
          split
          · exact Nat.two_pow_pos 31
          · exact not_overLimit_total hover hpos hlimit
        · cases h
    · obtain ⟨-, rfl⟩ := Prod.mk.inj (Option.some.inj h)
      exact (Uncounted.refl _).counts
  · cases h

end AppWorld

namespace IoApp

variable {s s' : IoApp}

/-- The object that the next connection gets. -/
def nextObj (s : IoApp) : Obj := s.owner.cache.get.1.getD s.brk

/-- The counts that the next connection starts with. -/
def sampler (s : IoApp) : IoSampling :=
  match s.owner.cache.get.1 with
  | some o => (s.objs o).2.sampling
  | none => IoSampling.new (s.clock s.tick)

/-- What opening a connection does to the counts and the limits. -/
structure Inherits (s s' : IoApp) : Prop where
  sampling : (s'.objs s.nextObj).2.sampling = s.sampler
  secondLimit : (s'.objs s.nextObj).2.secondLimit = s.secondLimit
  minuteLimit : (s'.objs s.nextObj).2.minuteLimit = s.minuteLimit
  hourLimit : (s'.objs s.nextObj).2.hourLimit = s.hourLimit
  other : ∀ o, o ≠ s.nextObj → s'.objs o = s.objs o
  clock : s'.clock = s.clock
  limit : s'.hourLimit = s.hourLimit

/-- **An object from the cache keeps its counts.** -/
theorem openConnection_inherits (s : IoApp) (sock : ℤ × ℕ) :
    Inherits s (s.openConnection sock) := by
  rcases s.owner.cache.get_cases with ⟨o, K, hget, -⟩ | hget
  · have hobj : s.nextObj = o := by rw [nextObj, hget]; rfl
    have hself : ((s.openConnection sock).objs o).2 =
        { (s.objs o).2.initializeApp s.id sock.2 with
          secondLimit := s.secondLimit
          minuteLimit := s.minuteLimit
          hourLimit := s.hourLimit } := by
      simp only [openConnection, hget, Option.getD_some, Function.update_self]
    have hsampler : s.sampler = (s.objs o).2.sampling := by rw [sampler, hget]
    rw [← hobj] at hself
    refine ⟨?_, by rw [hself], by rw [hself], by rw [hself], ?_, ?_, ?_⟩
    · rw [hself, hsampler, hobj]
      rfl
    · intro o' hne
      rw [hobj] at hne
      simp only [openConnection, hget, Option.getD_some, Function.update_of_ne hne]
    · simp only [openConnection, hget]
    · simp only [openConnection, hget]
  · have hobj : s.nextObj = s.brk := by rw [nextObj, hget]; rfl
    have hself : ((s.openConnection sock).objs s.brk).2 =
        { (IoAppConnection.new (s.clock s.tick)).initializeApp s.id sock.2 with
          secondLimit := s.secondLimit
          minuteLimit := s.minuteLimit
          hourLimit := s.hourLimit } := by
      simp only [openConnection, hget, Option.getD_none, Function.update_self]
    have hsampler : s.sampler = IoSampling.new (s.clock s.tick) := by rw [sampler, hget]
    rw [← hobj] at hself
    refine ⟨?_, by rw [hself], by rw [hself], by rw [hself], ?_, ?_, ?_⟩
    · rw [hself, hsampler]
      rfl
    · intro o' hne
      rw [hobj] at hne
      simp only [openConnection, hget, Option.getD_none, Function.update_of_ne hne]
    · simp only [openConnection, hget]
    · simp only [openConnection, hget]

/-- The counts of all objects of a thread. -/
structure Counted (s : IoApp) : Prop where
  clock : ∀ k, 0 ≤ s.clock k
  limit : 0 ≤ s.hourLimit ∧ s.hourLimit < 2 ^ 31
  limits : ∀ o, 0 ≤ (s.objs o).2.hourLimit ∧ (s.objs o).2.hourLimit < 2 ^ 31
  sane : ∀ o, (s.objs o).2.sampling.Sane

theorem counted_new {id : ℤ} {limits : ℤ × ℤ × ℤ} {H : Heap}
    {collector : Option MsMessageBlockQueue} {clock : ℕ → ℤ} (hclock : ∀ k, 0 ≤ clock k)
    (hlimit : IsLimit limits.2.2) : Counted (IoApp.new id limits H collector clock) where
  clock := hclock
  limit := ⟨le_of_lt hlimit.1, hlimit.2⟩
  limits _ := ⟨le_refl 0, Int.pow_pos (by decide)⟩
  sane _ := IoSampling.Sane.new (le_refl 0)

/-- A handler of the object `o`. -/
theorem Counted.after {o : Obj} {stream : List UInt8} {alloc : Bool}
    {m : Ctx Addr (AppWorld IoAppOwner)} (h : Counted s)
    (hm : AppWorld.Counts (s.ctx o stream alloc).app m.app) : Counted (s.after o m) := by
  have hlimit : m.app.conn.hourLimit = (s.objs o).2.hourLimit := hm.limit
  refine ⟨h.clock, h.limit, ?_, ?_⟩
  · intro o'
    rcases eq_or_ne o' o with rfl | hne
    · rw [after_objs_self, hlimit]
      exact h.limits o'
    · rw [after_objs_of_ne s hne]
      exact h.limits o'
  · intro o'
    rcases eq_or_ne o' o with rfl | hne
    · rw [after_objs_self]
      exact hm.sane h.clock (h.limits o').1 (h.limits o').2 (h.sane o')
    · rw [after_objs_of_ne s hne]
      exact h.sane o'

theorem Counted.sampler (h : Counted s) : s.sampler.Sane := by
  unfold IoApp.sampler
  split
  · exact h.sane _
  · exact IoSampling.Sane.new (h.clock _)

theorem Counted.openConnection (h : Counted s) (sock : ℤ × ℕ) :
    Counted (s.openConnection sock) := by
  have hopen := s.openConnection_inherits sock
  refine ⟨?_, ?_, ?_, ?_⟩
  · rw [hopen.clock]
    exact h.clock
  · rw [hopen.limit]
    exact h.limit
  · intro o
    rcases eq_or_ne o s.nextObj with rfl | hne
    · rw [hopen.hourLimit]
      exact h.limit
    · rw [hopen.other o hne]
      exact h.limits o
  · intro o
    rcases eq_or_ne o s.nextObj with rfl | hne
    · rw [hopen.sampling]
      exact h.sampler
    · rw [hopen.other o hne]
      exact h.sane o

theorem Counted.foldl_openConnection (q : List (ℤ × ℕ)) (h : Counted s) :
    Counted (q.foldl IoApp.openConnection s) := by
  induction q generalizing s with
  | nil => exact h
  | cons sock q ih => exact ih (h.openConnection sock)

theorem Counted.newConnection (h : Counted s) : Counted s.newConnection := by
  have hstart : Counted { s with sockQueue := [] } := ⟨h.clock, h.limit, h.limits, h.sane⟩
  have hfold := hstart.foldl_openConnection s.sockQueue
  exact ⟨hfold.clock, hfold.limit, hfold.limits, hfold.sane⟩

/-- Pushing a message does not count. -/
theorem Counted.pushMessage (h : Counted s) (v : Addr) : Counted (s.pushMessage v) := by
  unfold IoApp.pushMessage
  dsimp only
  split
  · exact h.after (AppWorld.Uncounted.counts ⟨rfl, rfl, rfl, rfl, rfl⟩)
  · split <;> exact ⟨h.clock, h.limit, h.limits, h.sane⟩

/-- **The counts of a thread** after a step. -/
theorem Counted.step {e : Event} (h : Counted s) (hstep : s.step e = some s') : Counted s' := by
  obtain ⟨-, hhappens⟩ := step_happens hstep
  cases hhappens with
  | accept fd => exact ⟨h.clock, h.limit, h.limits, h.sane⟩
  | acceptElsewhere => exact ⟨h.clock, h.limit, h.limits, h.sane⟩
  | outside H Q => exact ⟨h.clock, h.limit, h.limits, h.sane⟩
  | newConnection => exact h.newConnection
  | @read o ho fuel stream alloc script =>
    have hread := (AppWorld.countsRule (IoAppOwner.destroy o)).read
      AppWorld.Counts.whenReceivedFrame
    exact h.after (hread.readHandler fuel script _)
  | write ho connected sends =>
    exact h.after ((AppWorld.countsRule _).write.writeHandler connected sends _)
  | timeout ho => exact h.after ((AppWorld.countsRule _).write.timeoutHandler _)
  | push v => exact h.pushMessage v

/-- A handler of another object. -/
theorem after_uncounted_of_ne {o o' : Obj} (hne : o' ≠ o) (m : Ctx Addr (AppWorld IoAppOwner)) :
    AppWorld.Uncounted (s.ctx o' [] true).app ((s.after o m).ctx o' [] true).app := by
  have hobj : ((s.after o m).ctx o' [] true).app.conn = (s.ctx o' [] true).app.conn :=
    congrArg Prod.snd (after_objs_of_ne s hne m)
  refine ⟨rfl, ?_, ?_, ?_, ?_⟩
  all_goals rw [hobj]

/-- A handler that counts nothing. -/
theorem after_uncounted {o : Obj} {m : Ctx Addr (AppWorld IoAppOwner)}
    (hm : AppWorld.Uncounted (s.ctx o [] true).app m.app) (o' : Obj) :
    AppWorld.Uncounted (s.ctx o' [] true).app ((s.after o m).ctx o' [] true).app := by
  rcases eq_or_ne o' o with rfl | hne
  · have hobj : ((s.after o' m).ctx o' [] true).app.conn = m.app.conn :=
      congrArg Prod.snd (after_objs_self s o' m)
    obtain ⟨-, hsampling, hsecond, hminute, hhour⟩ := hm
    refine ⟨rfl, ?_, ?_, ?_, ?_⟩
    all_goals
      rw [hobj]
      assumption
  · exact after_uncounted_of_ne hne m

/-- **What other connections do** is not counted: between the frames of an open
connection its counts stay as they are. -/
theorem step_uncounted {e : Event} {o : Obj}
    (hread : ∀ fuel stream alloc script, e ≠ .read o fuel stream alloc script)
    (hnew : e ≠ .newConnection) (hstep : s.step e = some s') :
    AppWorld.Uncounted (s.ctx o [] true).app (s'.ctx o [] true).app := by
  obtain ⟨-, hhappens⟩ := step_happens hstep
  cases hhappens with
  | accept fd => exact ⟨rfl, rfl, rfl, rfl, rfl⟩
  | acceptElsewhere => exact ⟨rfl, rfl, rfl, rfl, rfl⟩
  | outside H Q => exact ⟨rfl, rfl, rfl, rfl, rfl⟩
  | newConnection => exact absurd rfl hnew
  | @read o' ho fuel stream alloc script =>
    have hne : o ≠ o' := by
      rintro rfl
      exact hread _ _ _ _ rfl
    exact after_uncounted_of_ne hne _
  | write ho connected sends =>
    exact after_uncounted ((AppWorld.uncountedRule _).write.writeHandler connected sends _) o
  | timeout ho => exact after_uncounted ((AppWorld.uncountedRule _).write.timeoutHandler _) o
  | push v =>
    unfold IoApp.pushMessage
    dsimp only
    split
    · refine after_uncounted ?_ o
      exact ⟨rfl, rfl, rfl, rfl, rfl⟩
    · split <;> exact ⟨rfl, rfl, rfl, rfl, rfl⟩

/-! ### The next client -/

/-- `setSecondLimit`, `setMinuteLimit` and `setHourLimit`. -/
def setLimits (s : IoApp) (limits : ℤ × ℤ × ℤ) : IoApp :=
  { s with secondLimit := limits.1, minuteLimit := limits.2.1, hourLimit := limits.2.2 }

/-- The connection of the next client, when it has been opened. -/
def client (s : IoApp) (sock : ℤ × ℕ) : AppWorld IoAppOwner :=
  ((s.openConnection sock).ctx s.nextObj [] true).app

/-- The answers to a client of a thread that had no other. -/
def decisions (limits : ℤ × ℤ × ℤ) (fs : List Arrival) : List (Option ℤ) :=
  ((IoApp.new 0 limits Heap.empty none fun _ => 0).client (0, 1)).receive fs

/-- The answers to the next client are a function of its frames, with the times
of their arrival, and of the limits alone, if its first frame arrives in the
given hour. -/
def Isolated (s : IoApp) (hour : ℤ) : Prop :=
  ∀ sock limits fs, IsLimit limits.1 → IsLimit limits.2.1 → IsLimit limits.2.2 →
    (∀ f ∈ Arrival.first fs, f.arrival.tdiv SECONDS_ONE_HOUR = hour) →
    ((s.setLimits limits).client sock).receive fs = decisions limits fs

theorem client_sampling (s : IoApp) (limits : ℤ × ℤ × ℤ) (sock : ℤ × ℕ) :
    ((s.setLimits limits).client sock).conn.sampling = s.sampler :=
  ((s.setLimits limits).openConnection_inherits sock).sampling

/-- The limits of a connection are those of its thread. -/
theorem client_sameLimits (s t : IoApp) (limits : ℤ × ℤ × ℤ) (sock sock' : ℤ × ℕ) :
    AppWorld.SameLimits ((s.setLimits limits).client sock) ((t.setLimits limits).client sock') := by
  have hs := (s.setLimits limits).openConnection_inherits sock
  have ht := (t.setLimits limits).openConnection_inherits sock'
  exact ⟨ht.secondLimit.trans hs.secondLimit.symm, ht.minuteLimit.trans hs.minuteLimit.symm,
    ht.hourLimit.trans hs.hourLimit.symm⟩

/-- An object that has counted nothing in the hour is as good as new. -/
theorem Counted.isolated {hour : ℤ} (h : Counted s)
    (hclear : hour ≠ s.sampler.currentHour ∨ s.sampler.total = 0) : Isolated s hour := by
  intro sock limits fs _ _ _ hstart
  refine (client_sameLimits (IoApp.new 0 limits Heap.empty none fun _ => 0) s limits _ _).receive ?_
  intro f hf
  have hhour := hstart f hf
  rw [client_sampling, client_sampling]
  show s.sampler.fixSampleSpace f.arrival = (IoSampling.new 0).fixSampleSpace f.arrival
  rw [IoSampling.new, IoSampling.fixSampleSpace_cleared]
  rcases hclear with hne | hzero
  · exact IoSampling.fixSampleSpace_of_ne (hhour.trans_ne hne)
  · rw [h.sampler.eq_cleared hzero, IoSampling.fixSampleSpace_cleared]

/-! ### The traces of the client before -/

/-- The first second of an hour. -/
def onTheHour (hour : ℤ) : ℤ := hour * SECONDS_ONE_HOUR - TIMEZONE_FIX_SECONDS

/-- A frame with the magic word and nothing else. -/
def emptyFrame : List UInt8 := [0, 0, 0, 4, 0x6D, 0x69, 0x6D, 0x69]

/-- Such a frame in the first second of an hour. -/
def probe (hour : ℤ) : Arrival := ⟨emptyFrame, 0, 8, fun _ => onTheHour hour⟩

theorem probe_genuine (hour : ℤ) : (probe hour).Genuine := by
  show (0 ≤ (0 : ℤ) ∧ (0 : ℤ) + 8 ≤ emptyFrame.length) ∧ hostInt (emptyFrame.drop 0) 1 = magic
  decide

theorem utcToLocal_onTheHour (hour : ℤ) :
    IoSampling.utcToLocal (onTheHour hour) = hour * SECONDS_ONE_HOUR :=
  Int.sub_add_cancel ..

theorem probe_hour (hour : ℤ) : (probe hour).arrival.tdiv SECONDS_ONE_HOUR = hour := by
  show (IoSampling.utcToLocal (onTheHour hour)).tdiv SECONDS_ONE_HOUR = hour
  rw [utcToLocal_onTheHour]
  exact Int.mul_tdiv_cancel hour (by decide)

/-- The answer to a probe: it is kicked, or counted. -/
theorem answer_probe (w : AppWorld IoAppOwner) (hour : ℤ) :
    ∃ u, AppWorld.SameLimits w u ∧
      ((w.overLimit (w.conn.sampling.getSample (onTheHour hour)).1 = true ∧
        w.answer (probe hour) = some (-1, u)) ∨
      (w.overLimit (w.conn.sampling.getSample (onTheHour hour)).1 = false ∧
        w.answer (probe hour) = some (0, u) ∧
        u.conn.sampling = (w.conn.sampling.getSample (onTheHour hour)).2.sample
          (onTheHour hour))) := by
  have hf := probe_genuine hour
  have hanswer : w.answer (probe hour) =
      if w.overLimit (w.conn.sampling.getSample (onTheHour hour)).1 then
        some (-1, (w.onArrival (probe hour)).getSample.2)
      else some (0, ((w.onArrival (probe hour)).getSample.2.process
        ((probe hour).mem.drop (probe hour).b.toNat) (probe hour).size).sample) := by
    have hsize : 0 ≤ (probe hour).size ∧
        (probe hour).b + (probe hour).size ≤ (probe hour).mem.length :=
      show 0 ≤ (8 : ℤ) ∧ (0 : ℤ) + 8 ≤ emptyFrame.length by decide
    unfold AppWorld.answer AppWorld.whenReceivedFrame
    rw [if_pos hf.1, if_pos hf.2]
    dsimp only
    rw [if_pos hsize]
    rfl
  rcases hover : w.overLimit (w.conn.sampling.getSample (onTheHour hour)).1 with - | -
  · rw [hover, if_neg Bool.false_ne_true] at hanswer
    refine ⟨_, ?_, Or.inr ⟨rfl, hanswer, rfl⟩⟩
    exact ⟨rfl, rfl, rfl⟩
  · rw [hover, if_pos rfl] at hanswer
    refine ⟨_, ?_, Or.inl ⟨rfl, hanswer⟩⟩
    exact ⟨rfl, rfl, rfl⟩

/-- The limits of the probes: only the hour can be full. -/
def probeLimits : ℤ × ℤ × ℤ := (2 ^ 31 - 1, 2 ^ 31 - 1, 1)

/-- A connection that has counted a frame in the hour kicks the first or the
second probe. -/
theorem receive_probes_of_total {w : AppWorld IoAppOwner} {hour : ℤ}
    (hhour : w.conn.sampling.currentHour = hour) (hlimit : w.conn.hourLimit = 1)
    (hpos : w.conn.sampling.total ≠ 0) (hsmall : w.conn.sampling.total ≤ 2 ^ 31) :
    w.receive [probe hour, probe hour] ≠ [some 0, some 0] := by
  intro heq
  have hnow : (IoSampling.utcToLocal (onTheHour hour)).tdiv SECONDS_ONE_HOUR =
      w.conn.sampling.currentHour := (probe_hour hour).trans hhour.symm
  obtain ⟨u, hlimits, ⟨-, hone⟩ | ⟨-, hone, hcounted⟩⟩ := answer_probe w hour
  · simp only [AppWorld.receive, hone] at heq
    exact absurd (Option.some.inj (List.cons.inj heq).1) (by decide)
  · -- the first probe made the hour full
    have htwo : (u.conn.sampling.getSample (onTheHour hour)).1.houTotal =
        w.conn.sampling.total + 1 := by
      rw [hcounted, IoSampling.getSample_of_hour hnow, IoSampling.houTotal_sample hnow]
      exact Nat.mod_eq_of_lt (by omega)
    have hover : u.overLimit (u.conn.sampling.getSample (onTheHour hour)).1 = true := by
      unfold AppWorld.overLimit
      rw [htwo, hlimits.hour, hlimit, show toUInt32 1 = 1 from rfl]
      simp only [Bool.or_eq_true, decide_eq_true_eq]
      omega
    obtain ⟨v, -, ⟨-, htwo⟩ | ⟨hwithin, -⟩⟩ := answer_probe u hour
    · simp only [AppWorld.receive, hone, htwo] at heq
      exact absurd (Option.some.inj (List.cons.inj (List.cons.inj heq).2).1) (by decide)
    · rw [hover] at hwithin
      cases hwithin

/-- The counts after a probe: the second and the minute are one word. -/
theorem getSample_sample_probe (hour : ℤ) :
    (((IoSampling.cleared hour).sample (onTheHour hour)).getSample (onTheHour hour)).1 =
      ⟨2, 2, 1⟩ := by
  have hhour : (hour * SECONDS_ONE_HOUR).tdiv SECONDS_ONE_HOUR = hour :=
    Int.mul_tdiv_cancel hour (by decide)
  have hsample : (IoSampling.cleared hour).sample (onTheHour hour) =
      ⟨1, IoSampling.bump (IoSampling.bump (fun _ => 0) 0) 0, hour, hour * SECONDS_ONE_HOUR⟩ := by
    rw [IoSampling.sample, utcToLocal_onTheHour, IoSampling.fixSampleSpace_cleared, hhour]
    simp only [IoSampling.cleared, sub_self, Int.zero_tdiv]
    rfl
  rw [hsample, IoSampling.getSample, utcToLocal_onTheHour, IoSampling.fixSampleSpace_of_eq hhour]
  simp only [sub_self, Int.zero_tdiv]
  rfl

/-- **A client that is alone** may send two probes. -/
theorem decisions_probes (hour : ℤ) :
    decisions probeLimits [probe hour, probe hour] = [some 0, some 0] := by
  have hhour : (IoSampling.utcToLocal (onTheHour hour)).tdiv SECONDS_ONE_HOUR = hour :=
    probe_hour hour
  have hzero : (IoSampling.new 0).getSample (onTheHour hour) =
      (⟨0, 0, 0⟩, IoSampling.cleared hour) := by
    rw [IoSampling.getSample, IoSampling.new, IoSampling.fixSampleSpace_cleared, hhour]
    rfl
  unfold decisions
  generalize hw : (IoApp.new 0 probeLimits Heap.empty none fun _ => 0).client (0, 1) = w
  have hsampling : w.conn.sampling = IoSampling.new 0 := by
    rw [← hw]
    rfl
  have hlimits : w.conn.secondLimit = 2 ^ 31 - 1 ∧ w.conn.minuteLimit = 2 ^ 31 - 1 ∧
      w.conn.hourLimit = 1 := by
    rw [← hw]
    exact ⟨rfl, rfl, rfl⟩
  obtain ⟨u, hsame, ⟨hover, -⟩ | ⟨-, hone, hcounted⟩⟩ := answer_probe w hour
  · rw [hsampling, hzero] at hover
    simp [AppWorld.overLimit] at hover
  · rw [hsampling, hzero] at hcounted
    obtain ⟨v, -, ⟨hover, -⟩ | ⟨-, htwo, -⟩⟩ := answer_probe u hour
    · rw [hcounted, getSample_sample_probe] at hover
      obtain ⟨hsecond, hminute, hhour⟩ := hlimits
      rw [AppWorld.overLimit, hsame.second, hsame.minute, hsame.hour, hsecond, hminute,
        hhour] at hover
      exact absurd hover (by decide)
    · simp only [AppWorld.receive, hone, htwo]

theorem Counted.clear_of_isolated {hour : ℤ} (h : Counted s) (hiso : Isolated s hour) :
    hour ≠ s.sampler.currentHour ∨ s.sampler.total = 0 := by
  by_contra hnot
  obtain ⟨hhour, hpos⟩ := not_or.mp hnot
  have hsame := hiso (0, 1) probeLimits [probe hour, probe hour] (by decide) (by decide)
    (by decide) ?_
  · rw [decisions_probes] at hsame
    refine receive_probes_of_total ?_ ?_ ?_ ?_ hsame
    · rw [client_sampling]
      exact (not_not.mp hhour).symm
    · exact ((s.setLimits probeLimits).openConnection_inherits (0, 1)).hourLimit
    · rw [client_sampling]
      exact hpos
    · rw [client_sampling]
      exact h.sampler.small
  · rw [Arrival.first_of_genuine (probe_genuine hour)]
    rintro f ⟨⟩
    exact probe_hour hour

/-- **Isolation of clients.**  Whatever happened on the thread before, the
answers to the next client are a function of its own frames and the limits
exactly if its object has counted nothing, or nothing in the hour of the
client's first frame. -/
theorem always_isolated_iff (id : ℤ) (limits : ℤ × ℤ × ℤ) (H : Heap)
    (collector : Option MsMessageBlockQueue) (clock : ℕ → ℤ) (es : List Event)
    (hclock : ∀ k, 0 ≤ clock k) (hlimit : IsLimit limits.2.2) :
    Always IoApp.step
      (fun s => ∀ hour, Isolated s hour ↔ hour ≠ s.sampler.currentHour ∨ s.sampler.total = 0)
      (IoApp.new id limits H collector clock) es := by
  refine Always.of_guarded (I := Counted) ?_ ?_ (counted_new hclock hlimit) (guarded_true _ es)
  · exact fun s e s' h _ hstep => h.step hstep
  · exact fun s h hour => ⟨h.clear_of_isolated, h.isolated⟩

/-- A client sends two frames and times out; then its object is used again. -/
theorem always_isolated_recycled :
    Always IoApp.step
      (fun s => ∀ hour, Isolated s hour ↔ hour ≠ s.sampler.currentHour ∨ s.sampler.total = 0)
      (IoApp.new 0 (9, 9, 1) Heap.empty none fun _ => 0)
      [.accept 5, .newConnection, .read 0 1024 emptyFrame true [.take 7],
        .read 0 1024 emptyFrame true [.take 7], .timeout 0, .newConnection] :=
  always_isolated_iff 0 (9, 9, 1) Heap.empty none (fun _ => 0) _ (fun _ => le_refl 0) (by decide)

/-- **Two histories.**  After the same client, the first frame of the next one is
rejected; the first frame of a client of a new thread, with the same limits and
at the same time, is accepted. -/
theorem kicked_for_another :
    (runEvents IoApp.step (IoApp.new 0 (9, 9, 1) Heap.empty none fun _ => 0)
      [.accept 5, .newConnection, .read 0 1024 emptyFrame true [.take 7],
        .read 0 1024 emptyFrame true [.take 7], .timeout 0, .newConnection]).map
      (fun s => (s.client (6, 2)).receive [⟨emptyFrame, 0, 8, fun _ => 0⟩]) =
        some [some (-1)] ∧
    (runEvents IoApp.step (IoApp.new 0 (9, 9, 1) Heap.empty none fun _ => 0) []).map
      (fun s => (s.client (6, 2)).receive [⟨emptyFrame, 0, 8, fun _ => 0⟩]) =
        some [some 0] := by
  decide +kernel

end IoApp

end Xkim
