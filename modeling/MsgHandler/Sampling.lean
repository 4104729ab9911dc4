/-
MsgHandler/Sampling.lean

`io::IoSampling` (`framework/io/io_sampling.{h,cpp}`): the counters a
connection limits its rate by.

The counters of one hour are a total and a `union` of sixty minutes and 3600
seconds.  Minute `m` and second `m` of the hour are therefore one and the
same word, which the model keeps: `detail` is the memory of the union, and
both views index it.
-/
import MsgHandler.Message

namespace Xkim

/-- `SECONDS_ONE_HOUR`. -/
def SECONDS_ONE_HOUR : ℤ := 3600

/-- `TIMEZONE_FIX_SECONDS`. -/
def TIMEZONE_FIX_SECONDS : ℤ := 28800

/-- `io::IoSampling`. -/
structure IoSampling where
  total : ℕ
  detail : ℤ → ℕ
  currentHour : ℤ
  currentHourBeginSecond : ℤ

/-- `io::IoSampling::Sample`. -/
structure Sample where
  secTotal : ℕ
  minTotal : ℕ
  houTotal : ℕ
  deriving DecidableEq, Repr

namespace IoSampling

/-- `utcToLocal`. -/
def utcToLocal (utc : ℤ) : ℤ := utc + TIMEZONE_FIX_SECONDS

/-- All counters cleared, for the given hour. -/
def cleared (hour : ℤ) : IoSampling := ⟨0, fun _ => 0, hour, hour * SECONDS_ONE_HOUR⟩

/-- `IoSampling::IoSampling()` at time `now`. -/
def new (now : ℤ) : IoSampling := cleared ((utcToLocal now).tdiv SECONDS_ONE_HOUR)

/-- `fixSampleSpace(local)`: a new hour starts from zero. -/
def fixSampleSpace (S : IoSampling) (loc : ℤ) : IoSampling :=
  let hour := loc.tdiv SECONDS_ONE_HOUR
  if hour ≠ S.currentHour then cleared hour else S

/-- `++detail[i].total`, on an `unsigned int`. -/
def bump (detail : ℤ → ℕ) (i : ℤ) : ℤ → ℕ :=
  Function.update detail i ((detail i + 1) % 2 ^ 32)

/-- `sample()` at time `now`. -/
def sample (S : IoSampling) (now : ℤ) : IoSampling :=
  let t := utcToLocal now
  let S := S.fixSampleSpace t
  let s := t - S.currentHourBeginSecond
  let m := s.tdiv 60
  { S with total := (S.total + 1) % 2 ^ 32, detail := bump (bump S.detail s) m }

/-- `getSample(sample)` at time `now`. -/
def getSample (S : IoSampling) (now : ℤ) : Sample × IoSampling :=
  let t := utcToLocal now
  let S := S.fixSampleSpace t
  let s := t - S.currentHourBeginSecond
  let m := s.tdiv 60
  (⟨S.detail s, S.detail m, S.total⟩, S)

/-- In an hour that has not been sampled yet every count is zero. -/
theorem getSample_of_new_hour {S : IoSampling} {now : ℤ}
    (h : (utcToLocal now).tdiv SECONDS_ONE_HOUR ≠ S.currentHour) :
    (S.getSample now).1 = ⟨0, 0, 0⟩ := by
  simp only [getSample, fixSampleSpace, if_pos h]
  rfl

/-- Sampling leaves the sampler in the hour it was called in. -/
theorem sample_currentHour (S : IoSampling) (now : ℤ) :
    (S.sample now).currentHour = (utcToLocal now).tdiv SECONDS_ONE_HOUR := by
  by_cases h : (utcToLocal now).tdiv SECONDS_ONE_HOUR = S.currentHour
  · simp only [sample, fixSampleSpace, if_neg (not_not.mpr h)]
    exact h.symm
  · simp only [sample, fixSampleSpace, if_pos h]
    rfl

end IoSampling

end Xkim
