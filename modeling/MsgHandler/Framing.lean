/-
MsgHandler/Framing.lean

Length-prefixed framing over an arbitrary alphabet.  A stream is cut into
frames by a *header* of fixed length that announces the total size of the
frame it opens.  Nothing here knows about sockets or about any particular
header format; a header is any function of the first `hdr` symbols.

The theory answers one question: given that `w ++ u` is a list of frames
followed by an incomplete one, what does a reader that has seen only `w`
know?  Either `w` holds a complete frame, and then it is the first frame of
the list (`Framing.peel`), or it does not, and then the reader has to wait;
if nothing is left to read (`u = []`), it has seen every frame
(`Framing.rest_of_incomplete`).
-/
import Mathlib

namespace Xkim

/-- A length-prefixed framing: `size l` is the size of the frame opened by
the header at the front of `l`, and depends on that header only. -/
structure Framing (α : Type*) where
  hdr : ℕ
  size : List α → ℕ
  size_append : ∀ l l', hdr ≤ l.length → size (l ++ l') = size l

namespace Framing

variable {α : Type*} (F : Framing α)

/-- `f` is exactly one frame. -/
def IsFrame (f : List α) : Prop := F.hdr ≤ f.length ∧ F.size f = f.length

/-- `w` does not hold a complete frame: its header is cut, or its body is. -/
def Incomplete (w : List α) : Prop := w.length < F.hdr ∨ w.length < F.size w

variable {F}

theorem not_incomplete_iff {w : List α} :
    ¬ F.Incomplete w ↔ F.hdr ≤ w.length ∧ F.size w ≤ w.length := by
  simp only [Incomplete, not_or, Nat.not_lt]

/-- A frame cut anywhere before its end is incomplete. -/
theorem IsFrame.incomplete_of_prefix {f r : List α} (hf : F.IsFrame f)
    (hr : r <+: f) (hlt : r.length < f.length) : F.Incomplete r := by
  obtain ⟨t, rfl⟩ := hr
  by_cases hhdr : r.length < F.hdr
  · exact Or.inl hhdr
  · refine Or.inr ?_
    rw [← F.size_append r t (Nat.not_lt.mp hhdr), hf.2]
    exact hlt

/-- Two lists that agree up to a complete header announce the same size. -/
theorem size_eq_of_append_eq {w u f g : List α} (h : w ++ u = f ++ g)
    (hw : F.hdr ≤ w.length) (hf : F.hdr ≤ f.length) : F.size w = F.size f := by
  rw [← F.size_append w u hw, h, F.size_append f g hf]

/-- **A complete frame in sight is the next frame of the stream.** -/
theorem peel {w u r : List α} {fs : List (List α)}
    (hfs : ∀ f ∈ fs, F.IsFrame f) (hr : F.Incomplete r)
    (h : w ++ u = fs.flatten ++ r) (hw : ¬ F.Incomplete w) :
    ∃ fs', fs = w.take (F.size w) :: fs' ∧
      w.drop (F.size w) ++ u = fs'.flatten ++ r := by
  obtain ⟨hhdr, hsize⟩ := not_incomplete_iff.mp hw
  cases fs with
  | nil =>
    -- `w` is a prefix of the incomplete rest, so the rest would be complete
    exfalso
    have hr' : w ++ u = r := by simpa using h
    rw [← hr'] at hr
    rcases hr with hr | hr
    · rw [List.length_append] at hr
      omega
    · rw [F.size_append w u hhdr, List.length_append] at hr
      omega
  | cons f fs =>
    have hf : F.IsFrame f := hfs f (by simp)
    have h' : w ++ u = f ++ (fs.flatten ++ r) := by simpa using h
    have hsz : F.size w = f.length := by
      rw [size_eq_of_append_eq h' hhdr hf.1, hf.2]
    have hlen : f.length ≤ w.length := hsz ▸ hsize
    have htake : w.take (F.size w) = f := by
      have := congrArg (List.take f.length) h'
      rwa [List.take_append_of_le_length hlen, List.take_left', ← hsz] at this
      rfl
    have hdrop : w.drop (F.size w) ++ u = fs.flatten ++ r := by
      have := congrArg (List.drop f.length) h'
      rwa [List.drop_append_of_le_length hlen, List.drop_left', ← hsz] at this
      rfl
    exact ⟨fs, by rw [htake], hdrop⟩

/-- If the stream is exhausted and holds no complete frame, no frame is
left. -/
theorem rest_of_incomplete {w r : List α} {fs : List (List α)}
    (hfs : ∀ f ∈ fs, F.IsFrame f) (h : w = fs.flatten ++ r)
    (hw : F.Incomplete w) : fs = [] := by
  cases fs with
  | nil => rfl
  | cons f fs =>
    exfalso
    have hf : F.IsFrame f := hfs f (by simp)
    have h' : w = f ++ (fs.flatten ++ r) := by simpa using h
    have hlen : f.length ≤ w.length := by
      rw [h', List.length_append]
      omega
    rcases hw with hw | hw
    · have := hf.1
      omega
    · rw [h', F.size_append _ _ hf.1, hf.2, ← h'] at hw
      omega

/-- The size announced by the header in sight is the size of the next
frame, or of the incomplete rest. -/
theorem size_of_header {w u r : List α} {fs : List (List α)}
    (hfs : ∀ f ∈ fs, F.IsFrame f) (h : w ++ u = fs.flatten ++ r)
    (hw : F.hdr ≤ w.length) :
    (∃ f ∈ fs, F.size w = f.length) ∨ F.size w = F.size r := by
  cases fs with
  | nil =>
    right
    have h' : w ++ u = r := by simpa using h
    rw [← h', F.size_append w u hw]
  | cons f fs =>
    left
    have hf : F.IsFrame f := hfs f (by simp)
    have h' : w ++ u = f ++ (fs.flatten ++ r) := by simpa using h
    exact ⟨f, by simp, by rw [size_eq_of_append_eq h' hw hf.1, hf.2]⟩

end Framing

end Xkim
