/-
MsgHandler/FrameBounds.lean

Which streams make `readSocket` hand over a malformed frame.

`whenReceivedFrame(b, size)` should only be called with `8 ≤ size ≤ 1024` and
with `[b, b + size)` inside the bytes received, since a message built from
the frame has `size - 8` data bytes.  The size is `ntohl(word) + 4`, in 32
bits, and it is only compared with `FRAME_MAX_SIZE`, on the first frame of a
buffer.  So three kinds of length words get through:

* a word below four announces a frame without room for the magic word;
* a word of `2 ^ 32 - 4` or more wraps around to a size below four;
* a word of `2 ^ 31 - 4` or more is a negative `int` to the pipelined loop.

`Hostile` says that a stream reaches one of them behind frames that are
accepted.  The main theorem is that these are exactly the streams on which
some sequence of read events violates the bounds.
-/
import MsgHandler.AppConnection
import MsgHandler.Reassembly

namespace Xkim

variable {ω : Type}

/-! ### Well-formed calls and hostile streams -/

/-- A call of `whenReceivedFrame` is within its bounds. -/
def Act.InBounds : Act → Prop
  | .frame b size rpos _ => 8 ≤ size ∧ size ≤ FRAME_MAX_SIZE ∧ 0 ≤ b ∧ b + size ≤ rpos
  | _ => True

theorem frame_inBounds {b s rpos : ℕ} {bytes : List UInt8} (low : 8 ≤ s)
    (high : s ≤ FRAME_MAX_SIZE) (all : b + s ≤ rpos) : (Act.frame b s rpos bytes).InBounds :=
  ⟨by omega, by omega, by omega, by omega⟩

/-- Every frame handed over is within its bounds, and every message passed
to the processor has the data length of such a frame. -/
structure Fine (m : Ctx Addr (AppWorld ω)) : Prop where
  frames : ∀ a ∈ m.trace, a.InBounds
  messages : ∀ x ∈ m.app.processed, 0 ≤ x.2.dataLen ∧
    ∃ b size rpos bytes, Act.frame b size rpos bytes ∈ m.trace ∧ x.2.dataLen = size - 8

/-- The stream opens with frames that pass every check, followed by one with
a malformed length.  The flag says whether the pipelined loop may come to
the first frame: the loop needs the length word of its next frame in the
same buffer as the frame before it. -/
inductive Hostile : Bool → List UInt8 → Prop
  | runt {p : Bool} {s : List UInt8} (hdr : 4 ≤ s.length) (short : ntohl s + 4 < 8)
      (all : ntohl s + 4 ≤ s.length) : Hostile p s
  | wrap {p : Bool} {s : List UInt8} (hdr : 4 ≤ s.length) (long : 2 ^ 32 ≤ ntohl s + 4) :
      Hostile p s
  | negative {s : List UInt8} (hdr : 4 ≤ s.length) (long : 2 ^ 31 ≤ ntohl s + 4) :
      Hostile true s
  | later {p : Bool} {s : List UInt8} (low : 8 ≤ ntohl s + 4)
      (high : ntohl s + 4 ≤ FRAME_MAX_SIZE) (all : ntohl s + 4 ≤ s.length)
      (mark : hostInt s 1 = magic)
      (next : Hostile (decide (ntohl s + 4 + 4 ≤ FRAME_MAX_SIZE)) (s.drop (ntohl s + 4))) :
      Hostile p s

/-- A stream that is hostile from its start is hostile behind other frames. -/
theorem Hostile.behind {p : Bool} {s : List UInt8} (h : Hostile false s) : Hostile p s := by
  cases h with
  | runt hdr short all => exact .runt hdr short all
  | wrap hdr long => exact .wrap hdr long
  | later low high all mark next => exact .later low high all mark next

/-- A stream without a length word is not hostile. -/
theorem not_hostile_of_short {p : Bool} {s : List UInt8} (hs : s.length < 4) :
    ¬ Hostile p s := by
  intro h
  cases h with
  | runt hdr short all => omega
  | wrap hdr long => omega
  | negative hdr long => omega
  | later low high all mark next => omega

/-! ### The hooks keep a fine record -/

section Hooks

variable {destroy : ℕ → ω → ω} {m : Ctx Addr (AppWorld ω)}

/-- Actions other than frames do not matter. -/
theorem Fine.append {l : List Act} {m' : Ctx Addr (AppWorld ω)} (h : Fine m)
    (hl : ∀ a ∈ l, a.InBounds) (ht : m'.trace = m.trace ++ l)
    (hp : m'.app.processed = m.app.processed) : Fine m' := by
  refine ⟨?_, ?_⟩
  · intro a ha
    rw [ht] at ha
    rcases List.mem_append.mp ha with ha | ha
    · exact h.frames a ha
    · exact hl a ha
  · intro x hx
    rw [hp] at hx
    obtain ⟨h0, b, size, rpos, bytes, hmem, hlen⟩ := h.messages x hx
    exact ⟨h0, b, size, rpos, bytes, ht ▸ List.mem_append_left l hmem, hlen⟩

theorem Fine.teardown (h : Fine m) (reset : Bool) :
    Fine (teardown (appHooks destroy) reset m) := by
  refine h.append (l := [.teardown reset]) ?_ rfl ?_
  · intro a ha
    rw [List.mem_singleton.mp ha]
    trivial
  · show (AppWorld.whenClosed _).processed = _
    rw [AppWorld.whenClosed_processed]
    rcases m.conn.currentPush with - | p <;> rfl

theorem Fine.recv {len : ℕ} {cs : List RecvChoice} {r : RecvResult}
    {m' : Ctx Addr (AppWorld ω)} (h : Fine m) (hpost : RecvPost len cs m r m') : Fine m' := by
  obtain ⟨k, hk⟩ := hpost.trace
  refine h.append ?_ hk (by rw [hpost.app])
  intro a ha
  rw [List.eq_of_mem_replicate ha]
  trivial

/-- What is left of the world after a call within bounds. -/
structure FrameCall (b : ℤ) (m : Ctx Addr (AppWorld ω)) (ret : Option ℤ)
    (m' : Ctx Addr (AppWorld ω)) : Prop where
  fine : Fine m'
  conn : m'.conn = m.conn
  unread : m'.unread = m.unread
  halted : ret = none → m'.halted = true
  mark : ∀ r, ret = some r → r ≠ -1 → hostInt (m.conn.rbuf.drop b.toNat) 1 = magic

/-- A message built from a frame within bounds has its data length. -/
theorem process_dataLen {size : ℤ} (h8 : 8 ≤ size) (hmax : size ≤ FRAME_MAX_SIZE)
    (buf : List UInt8) :
    0 ≤ (createIMessage buf size).dataLen ∧ (createIMessage buf size).dataLen = size - 8 := by
  rw [FRAME_MAX_SIZE] at hmax
  rw [createIMessage_dataLen, frameDataSize_eq (by omega) (by omega)]
  omega

theorem callFrame_fine (destroy : ℕ → ω → ω) {b size : ℤ} (h : Fine m)
    (hin : (Act.frame b size m.conn.rpos (slice m.conn.rbuf b size)).InBounds) :
    FrameCall b m (callFrame (appHooks destroy) b size m).1
      (callFrame (appHooks destroy) b size m).2 := by
  have hlog : ∀ a ∈ [Act.frame b size m.conn.rpos (slice m.conn.rbuf b size)], a.InBounds := by
    intro a ha
    rw [List.mem_singleton.mp ha]
    exact hin
  unfold callFrame
  rcases e : (appHooks destroy).whenReceivedFrame m.conn.rbuf b size m.app with - | ⟨r, w⟩
  · simp only [Ctx.log, e]
    exact ⟨h.append hlog rfl rfl, rfl, rfl, fun _ => rfl, by rintro r ⟨⟩⟩
  · simp only [Ctx.log, e]
    rcases AppWorld.whenReceivedFrame_cases e with ⟨rfl, hw⟩ | ⟨rfl, hmark, -, -, rfl⟩
    · have hp : w.processed = m.app.processed := by rcases hw with rfl | rfl <;> rfl
      refine ⟨h.append hlog rfl hp, rfl, rfl, by rintro ⟨⟩, ?_⟩
      intro r hr hne
      exact absurd (Option.some.inj hr).symm hne
    · refine ⟨⟨?_, ?_⟩, rfl, rfl, by rintro ⟨⟩, fun _ _ _ => hmark⟩
      · intro a ha
        rcases List.mem_append.mp ha with ha | ha
        · exact h.frames a ha
        · exact hlog a ha
      · intro x hx
        rcases List.mem_append.mp hx with hx | hx
        · obtain ⟨h0, b', size', rpos, bytes, hmem, hlen⟩ := h.messages x hx
          exact ⟨h0, b', size', rpos, bytes, List.mem_append_left _ hmem, hlen⟩
        · rw [List.mem_singleton.mp hx]
          obtain ⟨h0, hlen⟩ := process_dataLen hin.1 hin.2.1 (m.conn.rbuf.drop b.toNat)
          exact ⟨h0, b, size, m.conn.rpos, _,
            List.mem_append_right _ (List.mem_singleton.mpr rfl), hlen⟩

end Hooks

/-! ### Streams that are not hostile -/

section Safe

variable {destroy : ℕ → ω → ω} {m : Ctx Addr (AppWorld ω)} {s : List UInt8}

/-- The size announced by a stream that is not hostile, and what follows. -/
theorem size_of_not_hostile {p : Bool} (h : ¬ Hostile p s) (hdr : 4 ≤ s.length) :
    ntohl s + 4 < 2 ^ 32 ∧ (p = true → ntohl s + 4 < 2 ^ 31) ∧
      (ntohl s + 4 ≤ s.length → 8 ≤ ntohl s + 4) := by
  refine ⟨?_, ?_, ?_⟩
  · by_contra hlong
    exact h (.wrap hdr (by omega))
  · rintro rfl
    by_contra hlong
    exact h (.negative hdr (by omega))
  · intro hall
    by_contra hshort
    exact h (.runt hdr (by omega) hall)

theorem rest_of_not_hostile {p : Bool} (h : ¬ Hostile p s) (low : 8 ≤ ntohl s + 4)
    (high : ntohl s + 4 ≤ FRAME_MAX_SIZE) (all : ntohl s + 4 ≤ s.length)
    (mark : hostInt s 1 = magic) :
    ¬ Hostile (decide (ntohl s + 4 + 4 ≤ FRAME_MAX_SIZE)) (s.drop (ntohl s + 4)) :=
  fun hnext => h (.later low high all mark hnext)

/-- The connection takes no further events. -/
def Dead (m : Ctx Addr (AppWorld ω)) : Prop := m.halted = true ∨ m.conn.destroy = true

/-- The read buffer is in order. -/
structure Buffered (c : IoConnection Addr) : Prop where
  rbuf : c.rbuf.length = FRAME_MAX_SIZE
  rsize : c.rsize = FRAME_MAX_SIZE
  rpos : c.rpos ≤ FRAME_MAX_SIZE

theorem Buffered.length_received {c : IoConnection Addr} (h : Buffered c) :
    c.received.length = c.rpos := by
  have h₁ := h.rbuf
  have h₃ := h.rpos
  rw [IoConnection.received, List.length_take]
  omega

/-- Between two read events: nothing malformed so far, and a connection that
is still open has a harmless stream before it and no complete frame in its
buffer. -/
structure Harmless (m : Ctx Addr (AppWorld ω)) : Prop where
  fine : Fine m
  live : Dead m ∨ Buffered m.conn ∧ ¬ Hostile false (m.conn.received ++ m.unread) ∧
    (m.conn.rsockState = .recvFraming ∧ wire.Incomplete m.conn.received ∨
      m.conn.rsockState = .dataRecv ∧ HasHeader m.conn ∧ m.conn.frameSize ≤ FRAME_MAX_SIZE)

theorem teardown_harmless (h : Fine m) (reset : Bool) :
    Harmless (teardown (appHooks destroy) reset m) :=
  ⟨h.teardown reset, Or.inl (Or.inr rfl)⟩

/-- What the pipelined loop leaves over. -/
theorem keepRest_harmless {b len : ℕ} (h : Fine m) (hbuf : Buffered m.conn)
    (hlen : b + len ≤ m.conn.rbuf.length)
    (hs : ¬ Hostile false (window m.conn b len ++ m.unread))
    (hi : wire.Incomplete (window m.conn b len)) : Harmless (keepRest b len m) := by
  have hrbuf := hbuf.rbuf
  have hrec := received_keepRest hlen
  have hsize := length_keepRest hlen
  refine ⟨?_, Or.inr ⟨?_, ?_, Or.inl ⟨?_, by rw [hrec]; exact hi⟩⟩⟩
  · rw [keepRest_eq hlen]
    exact ⟨h.frames, h.messages⟩
  · refine ⟨hsize.trans hrbuf, ?_, ?_⟩ <;> rw [keepRest_eq hlen]
    · exact hbuf.rsize
    · show len ≤ _
      omega
  · rw [hrec, keepRest_eq hlen]
    exact hs
  · rw [keepRest_eq hlen]

/-- **A frame was accepted**, so what follows it in the window is harmless as
well. -/
theorem rest_of_accepted {p : Bool} {b len size : ℕ} {ret : ℤ} {m' : Ctx Addr (AppWorld ω)}
    (hb : b + len ≤ m.conn.rbuf.length) (hsize : size = ntohl (window m.conn b len) + 4)
    (h8 : 8 ≤ size) (hmax : size ≤ FRAME_MAX_SIZE) (hfull : size ≤ len)
    (hs : ¬ Hostile p (window m.conn b len ++ m.unread)) (hcall : FrameCall b m (some ret) m')
    (hret : ret ≠ -1) :
    ¬ Hostile (decide (size + 4 ≤ FRAME_MAX_SIZE))
      (window m'.conn (b + size) (len - size) ++ m'.unread) := by
  have hwin := window_length hb
  have hword : ntohl (window m.conn b len ++ m.unread) = ntohl (window m.conn b len) :=
    ntohl_append _ _ (by omega)
  have hmagic : hostInt (window m.conn b len ++ m.unread) 1 = magic := by
    rw [← hcall.mark ret rfl hret, Int.toNat_natCast]
    exact hostInt_window (by omega) hb m.unread
  have hnext := rest_of_not_hostile hs (by omega) (by omega)
    (by rw [List.length_append]; omega) hmagic
  rw [hword, ← hsize, List.drop_append_of_le_length (by omega), window_drop] at hnext
  rw [hcall.conn, hcall.unread]
  exact hnext

/-- **The pipelined loop** on a harmless window that ends at `_rpos`.  Each
further length word it reads stands in one buffer with the frame before
it. -/
theorem pipelined_harmless (fuel : ℕ) :
    ∀ {p : Bool} {b len size : ℕ} {m : Ctx Addr (AppWorld ω)}, Fine m → Buffered m.conn →
      b + len = m.conn.rpos → 4 ≤ len → ¬ Hostile p (window m.conn b len ++ m.unread) →
      size = ntohl (window m.conn b len) + 4 →
      Harmless (pipelined (appHooks destroy) fuel b len size m) := by
  induction fuel with
  | zero => exact fun hf _ _ _ _ _ => ⟨⟨hf.frames, hf.messages⟩, Or.inl (Or.inl rfl)⟩
  | succ fuel ih =>
    intro p b len size m hf hbuf hend h4 hs hsize
    have hrbuf := hbuf.rbuf
    have hrpos := hbuf.rpos
    have hb : b + len ≤ m.conn.rbuf.length := by omega
    have hwin := window_length hb
    have hword : ntohl (window m.conn b len ++ m.unread) = ntohl (window m.conn b len) :=
      ntohl_append _ _ (by omega)
    obtain ⟨-, -, hlow⟩ := size_of_not_hostile hs (by rw [List.length_append]; omega)
    rw [hword, List.length_append] at hlow
    rw [pipelined]
    by_cases hfull : size ≤ len
    · have hcall := callFrame_fine destroy hf (frame_inBounds (b := b) (s := size)
        (by omega) (by omega) (by omega))
      rw [if_pos (by omega)]
      rcases e : callFrame (appHooks destroy) b size m with ⟨- | ret, m'⟩
      · rw [e] at hcall
        exact ⟨hcall.fine, Or.inl (Or.inl (hcall.halted rfl))⟩
      · rw [e] at hcall
        replace hcall : FrameCall b m (some ret) m' := hcall
        have hf' := hcall.fine
        have hc := hcall.conn
        by_cases hret : ret = -1
        · simp only [hret, if_true]
          exact teardown_harmless hf' true
        · simp only [hret, if_false]
          rw [← Nat.cast_add, ← Nat.cast_sub hfull]
          have hb' : b + size + (len - size) ≤ m'.conn.rbuf.length := by rw [hc]; omega
          have hrest := rest_of_accepted hb hsize (by omega) (by omega) hfull hs hcall hret
          by_cases hmore : 4 ≤ len - size
          · rw [if_pos (by omega), wordAt?_window hmore hb']
            have hpiped : size + 4 ≤ FRAME_MAX_SIZE := by omega
            rw [decide_eq_true hpiped] at hrest
            have hsmall := (size_of_not_hostile hrest (by
              rw [List.length_append, window_length hb']; omega)).2.1 rfl
            rw [ntohl_append _ _ (by rw [window_length hb']; omega)] at hsmall
            dsimp only
            rw [toInt32_natCast_add_four (by omega)]
            exact ih hf' (hc ▸ hbuf) (by rw [hc]; omega) hmore hrest rfl
          · rw [if_neg (by omega)]
            exact keepRest_harmless hf' (hc ▸ hbuf) hb' (fun h => hrest h.behind)
              (Or.inl (by rw [window_length hb', wire_hdr]; omega))
    · -- a stream that is harmless inside the loop is so behind it
      rw [if_neg (by omega)]
      exact keepRest_harmless hf hbuf hb (fun h => hs h.behind)
        (Or.inr (by rw [hwin, wire_size]; omega))

/-- `deliver` on a harmless buffer with a length word. -/
theorem deliver_harmless {fuel : ℕ} (hf : Fine m) (hbuf : Buffered m.conn)
    (hs : ¬ Hostile false (m.conn.received ++ m.unread)) (hst : m.conn.rsockState = .dataRecv)
    (hh : HasHeader m.conn) (hmax : m.conn.frameSize ≤ FRAME_MAX_SIZE) :
    Harmless (deliver (appHooks destroy) fuel m) := by
  obtain ⟨h4, hsize⟩ := id hh
  have hlen := hbuf.length_received
  have hrpos := hbuf.rpos
  have hword : ntohl (m.conn.received ++ m.unread) = ntohl m.conn.received :=
    ntohl_append _ _ (by omega)
  obtain ⟨-, -, hlow⟩ := size_of_not_hostile hs (by rw [List.length_append]; omega)
  rw [hword, ← hsize, List.length_append] at hlow
  have hcast := toInt32_size hmax
  rw [deliver, hcast]
  by_cases heq : m.conn.rpos = m.conn.frameSize
  · rw [if_pos (by omega)]
    have hcall := callFrame_fine destroy hf (frame_inBounds (b := 0) (s := m.conn.frameSize)
      (by omega) (by omega) (by omega))
    rw [Nat.cast_zero] at hcall
    rcases e : callFrame (appHooks destroy) 0 m.conn.frameSize m with ⟨- | ret, m'⟩
    · rw [e] at hcall
      exact ⟨hcall.fine, Or.inl (Or.inl (hcall.halted rfl))⟩
    · rw [e] at hcall
      replace hcall : FrameCall (0 : ℕ) m (some ret) m' := hcall
      have hf' := hcall.fine
      have hc := hcall.conn
      by_cases hret : ret = -1
      · simp only [hret, if_true]
        exact teardown_harmless hf' true
      · simp only [hret, if_false]
        refine ⟨⟨hf'.frames, hf'.messages⟩, Or.inr ⟨?_, ?_, Or.inl ⟨rfl, Or.inl ?_⟩⟩⟩
        · exact ⟨hc ▸ hbuf.rbuf, hc ▸ hbuf.rsize, Nat.zero_le _⟩
        · -- the whole buffer was one frame
          have hb : 0 + m.conn.rpos ≤ m.conn.rbuf.length := by
            rw [hbuf.rbuf]
            omega
          have hrest := rest_of_accepted hb hsize (by omega) hmax heq.ge hs hcall hret
          rw [heq, Nat.sub_self] at hrest
          show ¬ Hostile false (List.take 0 _ ++ m'.unread)
          rw [List.take_zero, List.nil_append]
          exact fun h => hrest h.behind
        · show (List.take 0 m'.conn.rbuf).length < 4
          rw [List.take_zero]
          decide
  · rw [if_neg (by omega)]
    by_cases hgt : m.conn.frameSize < m.conn.rpos
    · rw [if_pos (by omega), show (0 : ℤ) = ((0 : ℕ) : ℤ) from rfl]
      exact pipelined_harmless fuel hf hbuf (Nat.zero_add _) h4 hs hsize
    · rw [if_neg (by omega)]
      exact ⟨hf, Or.inr ⟨hbuf, hs, Or.inr ⟨hst, hh, hmax⟩⟩⟩

/-- Bytes received move from the kernel to the buffer. -/
theorem recv_stream {len : ℕ} {cs : List RecvChoice} {bytes : List UInt8}
    {m' : Ctx Addr (AppWorld ω)} (hbuf : Buffered m.conn)
    (hpost : RecvPost len cs m (.got bytes) m') :
    (store bytes m').conn.received ++ (store bytes m').unread =
      m.conn.received ++ m.unread := by
  have hrbuf := hbuf.rbuf
  have hrpos := hbuf.rpos
  rw [received_store (by rw [hpost.conn]; omega), hpost.conn, hpost.unread, List.append_assoc]
  rfl

theorem store_buffered {bytes : List UInt8} (hbuf : Buffered m.conn)
    (hroom : m.conn.rpos + bytes.length ≤ FRAME_MAX_SIZE) :
    Buffered (store bytes m).conn := by
  refine ⟨?_, hbuf.rsize, hroom⟩
  rw [store_rbuf_length (hroom.trans_eq hbuf.rbuf.symm), hbuf.rbuf]

theorem dataRecv_harmless {fuel : ℕ} (hf : Fine m) (hbuf : Buffered m.conn)
    (hs : ¬ Hostile false (m.conn.received ++ m.unread)) (hst : m.conn.rsockState = .dataRecv)
    (hh : HasHeader m.conn) (hmax : m.conn.frameSize ≤ FRAME_MAX_SIZE) :
    Harmless (dataRecv (appHooks destroy) fuel m) := by
  obtain ⟨h4, hsize⟩ := id hh
  have hrbuf := hbuf.rbuf
  have hrpos := hbuf.rpos
  have hlen := hbuf.length_received
  have hleft := toInt32_left hmax hrpos
  rw [dataRecv, hleft]
  by_cases hmore : (m.conn.frameSize : ℤ) - m.conn.rpos > 0
  · simp only [hmore, if_true]
    rcases hrec : recv ((m.conn.frameSize : ℤ) - m.conn.rpos).toNat m.script m with ⟨res, m'⟩
    have hpost := recv_post_of_eq hrec
    have hf' := hf.recv hpost
    have hc := hpost.conn
    cases res with
    | got bytes =>
      have hgot := (hpost.got bytes rfl).2.2
      have hbuf' : Buffered (store bytes m').conn := by
        refine store_buffered (hc ▸ hbuf) ?_
        rw [hc]
        omega
      refine deliver_harmless ⟨hf'.frames, hf'.messages⟩ hbuf' ?_ ?_ ?_ ?_
      · rw [recv_stream hbuf hpost]
        exact hs
      · show m'.conn.rsockState = _
        rw [hc, hst]
      · exact HasHeader.store (hc ▸ hh) (by rw [hc]; omega)
      · show m'.conn.frameSize ≤ _
        rw [hc]
        exact hmax
    | eof => exact teardown_harmless hf' false
    | error => exact teardown_harmless hf' true
    | eagain =>
      have hu := hpost.unread
      rw [RecvResult.bytes_eagain, List.nil_append] at hu
      refine ⟨hf', Or.inr ⟨hc ▸ hbuf, ?_, Or.inr ?_⟩⟩
      · rw [hc, ← hu]
        exact hs
      · rw [hc]
        exact ⟨hst, hh, hmax⟩
  · simp only [hmore, if_false]
    exact deliver_harmless hf hbuf hs hst hh hmax

/-- A length word in a harmless buffer: it is refused, or the frame it opens
is waited for.  Whether the connection is still open does not matter here. -/
theorem frameHeader_harmless {fuel : ℕ} (hf : Fine m) (hbuf : Buffered m.conn)
    (hs : ¬ Hostile false (m.conn.received ++ m.unread))
    (hst : m.conn.rsockState = .recvFraming) :
    Harmless (frameHeader (appHooks destroy) fuel m) := by
  have hrbuf := hbuf.rbuf
  have hlen := hbuf.length_received
  rw [frameHeader]
  by_cases h4 : m.conn.rpos < 4
  · rw [if_pos h4]
    exact ⟨hf, Or.inr ⟨hbuf, hs, Or.inl ⟨hst, Or.inl (by rw [hlen]; exact h4)⟩⟩⟩
  · have hword : ntohl m.conn.rbuf = ntohl m.conn.received := by
      rw [IoConnection.received, ntohl_take (by omega) (by rw [hrbuf, FRAME_MAX_SIZE]; omega)]
    have hwrap := (size_of_not_hostile hs (by rw [List.length_append]; omega)).1
    rw [ntohl_append _ _ (by omega)] at hwrap
    have hsize : (ntohl m.conn.rbuf + 4) % 2 ^ 32 = ntohl m.conn.received + 4 := by
      rw [hword, Nat.mod_eq_of_lt hwrap]
    rw [if_neg h4]
    simp only [hsize]
    by_cases hmax : ntohl m.conn.received + 4 > FRAME_MAX_SIZE
    · rw [if_pos hmax]
      refine teardown_harmless ?_ true
      exact ⟨hf.frames, hf.messages⟩
    · have hfit := not_grow (not_lt.mp hmax) hbuf.rsize
      rw [if_neg hmax, if_neg hfit]
      refine dataRecv_harmless ⟨hf.frames, hf.messages⟩ ⟨hrbuf, hbuf.rsize, hbuf.rpos⟩ hs rfl
        ⟨?_, rfl⟩ (not_lt.mp hmax)
      show 4 ≤ m.conn.rpos
      omega

theorem recvFraming_harmless {fuel : ℕ} (hf : Fine m) (hbuf : Buffered m.conn)
    (hs : ¬ Hostile false (m.conn.received ++ m.unread))
    (hst : m.conn.rsockState = .recvFraming) :
    Harmless (recvFraming (appHooks destroy) fuel m) := by
  have hrpos := hbuf.rpos
  rw [recvFraming]
  rcases hrec : recv (m.conn.rsize - m.conn.rpos) m.script m with ⟨res, m'⟩
  have hpost := recv_post_of_eq hrec
  have hf' := hf.recv hpost
  have hc := hpost.conn
  have hu := hpost.unread
  cases res with
  | got bytes =>
    have hgot := (hpost.got bytes rfl).2.2
    rw [hbuf.rsize] at hgot
    refine frameHeader_harmless ⟨hf'.frames, hf'.messages⟩
      (store_buffered (hc ▸ hbuf) (by rw [hc]; omega)) ?_ ?_
    · rw [recv_stream hbuf hpost]
      exact hs
    · show m'.conn.rsockState = _
      rw [hc, hst]
  | eof => exact teardown_harmless hf' false
  | error =>
    -- the code goes on with the connection it has just reset
    have hbuf' : Buffered m'.conn := hc ▸ hbuf
    refine frameHeader_harmless (hf'.teardown true) ⟨hbuf'.rbuf, hbuf'.rsize, hbuf'.rpos⟩ ?_ ?_
    · show ¬ Hostile false (m'.conn.received ++ m'.unread)
      have hu' : m.unread = m'.unread := hu
      rw [hc, ← hu']
      exact hs
    · show m'.conn.rsockState = _
      rw [hc, hst]
  | eagain =>
    have hu' : m.unread = m'.unread := hu
    refine frameHeader_harmless hf' (hc ▸ hbuf) ?_ (by rw [hc, hst])
    rw [hc, ← hu']
    exact hs

/-- **One read event** keeps a harmless connection harmless. -/
theorem readHandler_harmless {fuel : ℕ} {script : List RecvChoice} (h : Harmless m) :
    Harmless (readHandler (appHooks destroy) fuel script m) := by
  rw [readHandler]
  by_cases hstop : (m.halted || m.conn.destroy) = true
  · rw [if_pos hstop]
    exact h
  · rw [if_neg hstop]
    obtain ⟨hf, hdead | ⟨hbuf, hs, ⟨hst, -⟩ | ⟨hst, hh, hmax⟩⟩⟩ := h
    · exact absurd (by rcases hdead with hd | hd <;> simp [hd]) hstop
    · simp only [readSocket, hst]
      exact recvFraming_harmless ⟨hf.frames, hf.messages⟩ hbuf hs hst
    · simp only [readSocket, hst]
      exact dataRecv_harmless ⟨hf.frames, hf.messages⟩ hbuf hs hst hh hmax

theorem readEvents_harmless {fuel : ℕ} (scripts : List (List RecvChoice)) (h : Harmless m) :
    Harmless (readEvents (appHooks destroy) fuel scripts m) := by
  induction scripts generalizing m with
  | nil => exact h
  | cons cs scripts ih => exact ih (readHandler_harmless h)

end Safe

/-! ### Hostile streams -/

section Attack

variable (destroy : ℕ → ω → ω) (fuel : ℕ) {m : Ctx Addr (AppWorld ω)} {s : List UInt8}

/-- The hour of the `n`-th reading of the clock. -/
def AppWorld.hourAt (w : AppWorld ω) (n : ℕ) : ℤ :=
  (IoSampling.utcToLocal (w.clock n)).tdiv SECONDS_ONE_HOUR

/-- A clock that moves on by an hour or more at every reading: the limits
never refuse a frame. -/
structure Unhurried (w : AppWorld ω) : Prop where
  ahead : ∀ n, w.hourAt n < w.hourAt (n + 1)
  fresh : w.conn.sampling.currentHour < w.hourAt w.tick

/-- An unhurried client has every frame with the magic word accepted. -/
theorem Unhurried.accept {w : AppWorld ω} (h : Unhurried w) {mem : List UInt8} {b size : ℤ}
    (hb : 0 ≤ b) (h8 : b + 8 ≤ mem.length) (hmark : hostInt (mem.drop b.toNat) 1 = magic)
    (h0 : 0 ≤ size) (hsize : b + size ≤ mem.length) :
    ∃ w', AppWorld.whenReceivedFrame mem b size w = some (0, w') ∧ Unhurried w' := by
  have hzero : w.getSample.1 = ⟨0, 0, 0⟩ := IoSampling.getSample_of_new_hour (ne_of_gt h.fresh)
  refine ⟨(w.getSample.2.process (mem.drop b.toNat) size).sample, ?_, h.ahead, ?_⟩
  · have hlimit : w.getSample.2.overLimit w.getSample.1 = false := by
      rw [hzero]
      simp [AppWorld.overLimit]
    simp only [AppWorld.whenReceivedFrame, hlimit]
    rw [if_pos ⟨hb, h8⟩, if_pos hmark, if_neg Bool.false_ne_true, if_pos ⟨h0, hsize⟩]
  · -- the sampler is left in the hour of the last reading
    show (IoSampling.sample _ _).currentHour < _
    rw [IoSampling.sample_currentHour]
    exact h.ahead (w.tick + 1 + 1)

/-- An open connection at the start of a frame, with `s` before it. -/
structure Boundary (s : List UInt8) (m : Ctx Addr (AppWorld ω)) : Prop where
  running : m.halted = false
  alive : m.conn.destroy = false
  socket : m.conn.socket ≠ none
  state : m.conn.rsockState = .recvFraming
  rbuf : m.conn.rbuf.length = FRAME_MAX_SIZE
  rsize : m.conn.rsize = FRAME_MAX_SIZE
  rpos : m.conn.rpos = 0
  unread : m.unread = s
  calm : Unhurried m.app

/-- The first `k` bytes of `s` have been received. -/
structure Filled (k : ℕ) (s : List UInt8) (m : Ctx Addr (AppWorld ω)) : Prop where
  running : m.halted = false
  alive : m.conn.destroy = false
  socket : m.conn.socket ≠ none
  rbuf : m.conn.rbuf.length = FRAME_MAX_SIZE
  rsize : m.conn.rsize = FRAME_MAX_SIZE
  rpos : m.conn.rpos = k
  max : k ≤ FRAME_MAX_SIZE
  received : m.conn.received = s.take k
  unread : m.unread = s.drop k
  calm : Unhurried m.app

/-- A read event that delivers `k` bytes at the start of a frame. -/
theorem Boundary.fill (h : Boundary s m) {k : ℕ} (hk : 0 < k) (hmax : k ≤ FRAME_MAX_SIZE)
    (hall : k ≤ s.length) :
    ∃ m', readHandler (appHooks destroy) fuel [.take (k - 1)] m =
      frameHeader (appHooks destroy) fuel m' ∧ Filled k s m' := by
  have hne : m.unread ≠ [] := by
    rw [h.unread]
    rintro rfl
    exact absurd hall (Nat.not_le.mpr hk)
  have hmin : min (k - 1 + 1) FRAME_MAX_SIZE = k := by omega
  have hlen : (s.take k).length = k := by
    rw [List.length_take]
    omega
  refine ⟨store (s.take k) { (m.log (recvAct FRAME_MAX_SIZE m.conn)) with
    script := [], unread := s.drop k }, ?_, ?_⟩
  · rw [readHandler, if_neg (by simp [h.running, h.alive])]
    simp only [readSocket, h.state, recvFraming, h.rsize, h.rpos, Nat.sub_zero]
    rw [recv_take (m := { m with script := [.take (k - 1)] }) h.socket
      (show 0 < FRAME_MAX_SIZE by decide) hne]
    simp only [hmin, h.unread, Ctx.log]
  · have hrbuf := h.rbuf
    refine ⟨h.running, h.alive, h.socket, ?_, h.rsize, ?_, hmax, ?_, rfl, h.calm⟩
    · show (m.conn.rbuf.take m.conn.rpos ++ s.take k ++
        m.conn.rbuf.drop (m.conn.rpos + (s.take k).length)).length = _
      rw [List.length_append, List.length_append, List.length_take, List.length_drop, hlen,
        h.rpos]
      omega
    · show m.conn.rpos + (s.take k).length = k
      rw [h.rpos, hlen, Nat.zero_add]
    · rw [received_store (by show m.conn.rpos ≤ m.conn.rbuf.length; rw [h.rpos]; omega)]
      show m.conn.rbuf.take m.conn.rpos ++ s.take k = _
      rw [h.rpos, List.take_zero, List.nil_append]

/-- A length word whose frame, after the wrap-around, is already there goes
straight to `deliver`. -/
theorem Filled.frameHeader_eq {k : ℕ} (h : Filled k s m) (h4 : 4 ≤ k) (hall : k ≤ s.length)
    (hmax : (ntohl s + 4) % 2 ^ 32 ≤ FRAME_MAX_SIZE) (hthere : (ntohl s + 4) % 2 ^ 32 ≤ k) :
    frameHeader (appHooks destroy) fuel m = deliver (appHooks destroy) fuel
      { m with conn := { m.conn with
        frameSize := (ntohl s + 4) % 2 ^ 32, rsockState := .dataRecv } } := by
  have hrpos := h.rpos
  have hrbuf := h.rbuf
  have hk := h.max
  have hword : ntohl m.conn.rbuf = ntohl s := by
    have hrec := h.received
    rw [IoConnection.received, hrpos] at hrec
    rw [← ntohl_take h4 (by rw [hrbuf]; decide), hrec, ntohl_take h4 (by omega)]
  have hfit := not_grow hmax h.rsize
  have hleft : ¬ toInt32 (((ntohl s + 4) % 2 ^ 32 : ℕ) - (m.conn.rpos : ℤ)) > 0 := by
    rw [toInt32_left hmax (hrpos.trans_le hk)]
    omega
  rw [frameHeader, if_neg (by omega), hword]
  simp only []
  rw [if_neg (by omega), if_neg hfit]
  simp only [dataRecv]
  rw [if_neg hleft]

/-- A malformed call in the trace. -/
theorem not_fine_of_frame {b size : ℤ} {rpos : ℕ} {bytes : List UInt8}
    (hmem : Act.frame b size rpos bytes ∈ m.trace) (h : size < 8) : ¬ Fine m := by
  intro hf
  have hlow := (hf.frames _ hmem).1
  omega

/-- A call of `whenReceivedFrame` is in the trace it leaves. -/
theorem callFrame_mem {P σ : Type} (h : IoHooks P σ) (b size : ℤ) (m : Ctx P σ) :
    Act.frame b size m.conn.rpos (slice m.conn.rbuf b size) ∈ (callFrame h b size m).2.trace := by
  rw [callFrame_trace]
  exact List.mem_append_right _ (List.mem_singleton.mpr rfl)

/-- The pipelined loop begins with a call. -/
theorem pipelined_calls {P σ : Type} (h : IoHooks P σ) (fuel : ℕ) {b len size : ℤ}
    {m : Ctx P σ} (hfull : size ≤ len) :
    Act.frame b size m.conn.rpos (slice m.conn.rbuf b size) ∈
      (pipelined h (fuel + 1) b len size m).trace := by
  have hmem := callFrame_mem h b size m
  generalize Act.frame b size m.conn.rpos (slice m.conn.rbuf b size) = a at hmem ⊢
  refine pipelined_round (Q := fun m' => a ∈ m'.trace) ?_ ?_ ?_ ?_ ?_ ?_
  · intro hlt
    omega
  · exact fun _ _ => hmem
  · exact fun _ _ => List.mem_append_left _ hmem
  · exact fun _ _ => hmem
  · exact fun _ _ _ _ _ _ _ => ((traceRule h).pipelined fuel _ _ _ _).subset hmem
  · exact fun _ _ _ _ _ => ((traceRule h).keepRest _ _ _).subset hmem

/-- A buffer that holds exactly one frame is handed over. -/
theorem deliver_calls {P σ : Type} (h : IoHooks P σ) (fuel : ℕ) {m : Ctx P σ}
    (hfull : (m.conn.rpos : ℤ) = toInt32 m.conn.frameSize) :
    Act.frame 0 (toInt32 m.conn.frameSize) m.conn.rpos
      (slice m.conn.rbuf 0 (toInt32 m.conn.frameSize)) ∈ (deliver h fuel m).trace := by
  have hmem := callFrame_mem h 0 (toInt32 m.conn.frameSize) m
  generalize Act.frame 0 (toInt32 m.conn.frameSize) m.conn.rpos
    (slice m.conn.rbuf 0 (toInt32 m.conn.frameSize)) = a at hmem ⊢
  refine deliver_cases (Q := fun m' => a ∈ m'.trace) ?_ ?_ ?_ ?_ ?_
  · exact fun _ _ => hmem
  · exact fun _ _ => List.mem_append_left _ hmem
  · intro ret m' _ hm' _
    rw [hm'] at hmem
    exact hmem
  · intro hmore
    omega
  · intro hless
    omega

/-- A frame that passes every check of `readSocket` and
`whenReceivedFrame`. -/
structure Passes (f : List UInt8) : Prop where
  low : 8 ≤ f.length
  high : f.length ≤ FRAME_MAX_SIZE
  size : f.length = ntohl f + 4
  mark : hostInt f 1 = magic

/-- A frame that is announced with its own size and is all there. -/
theorem Filled.deliver_eq {f : List UInt8} {k : ℕ} (hf : Passes f)
    (h : Filled k (f ++ s) m) (hk : f.length ≤ k) (hall : k ≤ (f ++ s).length) :
    frameHeader (appHooks destroy) fuel m = deliver (appHooks destroy) fuel
      { m with conn := { m.conn with frameSize := f.length, rsockState := .dataRecv } } := by
  have hlow := hf.low
  have hhigh := hf.high
  have hword : (ntohl (f ++ s) + 4) % 2 ^ 32 = f.length := by
    rw [ntohl_append f s (by omega), ← hf.size]
    rw [FRAME_MAX_SIZE] at hhigh
    omega
  have heq := h.frameHeader_eq destroy fuel (by omega) hall
    (by omega) (by omega)
  rw [hword] at heq
  exact heq

/-- A frame that passes is accepted, wherever the buffer ends. -/
theorem Filled.accept {f : List UInt8} {k : ℕ} (hf : Passes f) (h : Filled k (f ++ s) m)
    (hk : f.length ≤ k) :
    ∃ w', AppWorld.whenReceivedFrame m.conn.rbuf 0 f.length m.app = some (0, w') ∧
      Unhurried w' := by
  have hlow := hf.low
  have hhigh := hf.high
  have hrbuf := h.rbuf
  have hmark : hostInt (m.conn.rbuf.drop (0 : ℤ).toNat) 1 = magic := by
    have hrec := h.received
    rw [IoConnection.received, h.rpos] at hrec
    show hostInt m.conn.rbuf 1 = magic
    rw [← hostInt_take (n := k) (by omega) (by omega), hrec, List.take_append]
    rw [List.take_of_length_le hk, hostInt_append _ (by omega)]
    exact hf.mark
  exact h.calm.accept (le_refl _) (by omega) hmark (by omega) (by omega)

/-- Handing over one frame that passes, exactly. -/
theorem Boundary.next {f : List UInt8} (hf : Passes f) (h : Boundary (f ++ s) m) :
    Boundary s (readHandler (appHooks destroy) fuel [.take (f.length - 1)] m) := by
  have hlow := hf.low
  have hhigh := hf.high
  have hall : f.length ≤ (f ++ s).length := by
    rw [List.length_append]
    omega
  obtain ⟨m', heq, hfill⟩ := h.fill destroy fuel (by omega) hhigh hall
  obtain ⟨w', hacc, hcalm⟩ := hfill.accept hf (le_refl _)
  have hcast := toInt32_size hhigh
  have hdrop : m'.unread = s := by
    rw [hfill.unread, List.drop_left]
  rw [heq, hfill.deliver_eq destroy fuel hf (le_refl _) hall]
  simp only [deliver, hcast, hfill.rpos, if_true, callFrame, Ctx.log]
  have hhook : (appHooks destroy).whenReceivedFrame m'.conn.rbuf 0 f.length m'.app =
    some (0, w') := hacc
  simp only [hhook, show ¬ ((0 : ℤ) = -1) by decide, if_false]
  exact ⟨hfill.running, hfill.alive, hfill.socket, rfl, hfill.rbuf, hfill.rsize, rfl, hdrop,
    hcalm⟩

/-! ### The three attacks -/

/-- A length word below four, with its frame. -/
theorem Boundary.runt (h : Boundary s m) (short : ntohl s + 4 < 8)
    (all : ntohl s + 4 ≤ s.length) :
    ¬ Fine (readHandler (appHooks destroy) fuel [.take (ntohl s + 4 - 1)] m) := by
  have hmax : ntohl s + 4 ≤ FRAME_MAX_SIZE := by
    rw [FRAME_MAX_SIZE]
    omega
  have hmod : (ntohl s + 4) % 2 ^ 32 = ntohl s + 4 := by omega
  have hcast := toInt32_size hmax
  obtain ⟨m', heq, hfill⟩ := h.fill destroy fuel (by omega) hmax all
  rw [heq, hfill.frameHeader_eq destroy fuel (by omega) all (by omega) (by omega), hmod]
  refine not_fine_of_frame (deliver_calls (appHooks destroy) fuel ?_) ?_
  · show (m'.conn.rpos : ℤ) = toInt32 (ntohl s + 4 : ℕ)
    rw [hfill.rpos, hcast]
  · show toInt32 (ntohl s + 4 : ℕ) < 8
    omega

/-- A length word that wraps around. -/
theorem Boundary.wrap (h : Boundary s m) (hdr : 4 ≤ s.length) (long : 2 ^ 32 ≤ ntohl s + 4) :
    ¬ Fine (readHandler (appHooks destroy) (fuel + 1) [.take 3] m) := by
  have hlt := ntohl_lt s
  have hsmall : (ntohl s + 4) % 2 ^ 32 < 4 := by omega
  have hmax : (ntohl s + 4) % 2 ^ 32 ≤ FRAME_MAX_SIZE := by
    rw [FRAME_MAX_SIZE]
    omega
  have hcast := toInt32_size hmax
  obtain ⟨m', heq, hfill⟩ := h.fill destroy (fuel + 1) (k := 4) (by omega) (by decide) hdr
  rw [heq, hfill.frameHeader_eq destroy (fuel + 1) (le_refl _) hdr hmax (by omega)]
  simp only [deliver, hcast, hfill.rpos]
  rw [if_neg (by omega), if_pos (by omega)]
  refine not_fine_of_frame (pipelined_calls (appHooks destroy) fuel (by omega)) ?_
  omega

/-- A length word that is a negative `int`, right behind a frame that
passes. -/
theorem Boundary.negative {f : List UInt8} (hf : Passes f)
    (hsmall : f.length + 4 ≤ FRAME_MAX_SIZE) (h : Boundary (f ++ s) m) (hdr : 4 ≤ s.length)
    (long : 2 ^ 31 ≤ ntohl s + 4) :
    ¬ Fine (readHandler (appHooks destroy) (fuel + 1 + 1) [.take (f.length + 4 - 1)] m) := by
  have hlow := hf.low
  have hhigh := hf.high
  have hlt := ntohl_lt s
  have hall : f.length + 4 ≤ (f ++ s).length := by
    rw [List.length_append]
    omega
  obtain ⟨m', heq, hfill⟩ := h.fill destroy (fuel + 1 + 1) (by omega) hsmall hall
  obtain ⟨w', hacc, -⟩ := hfill.accept hf (by omega)
  have hrbuf := hfill.rbuf
  have hcast := toInt32_size hhigh
  have hneg : toInt32 ((ntohl s : ℤ) + 4) < 4 := by
    unfold toInt32
    rw [Int.bmod_eq_emod]
    split <;> omega
  -- the four bytes behind the frame are the next length word
  have hword : wordAt? m'.conn.rbuf (0 + f.length) = some (ntohl s) := by
    have hrec := hfill.received
    rw [IoConnection.received, hfill.rpos] at hrec
    have hrest : (m'.conn.rbuf.drop f.length).take 4 = s.take 4 := by
      have hdrop := congrArg (List.drop f.length) hrec
      rw [List.drop_take, List.drop_take, List.drop_left] at hdrop
      rw [show f.length + 4 - f.length = 4 by omega] at hdrop
      exact hdrop
    rw [wordAt?, if_pos (by omega), zero_add, Int.toNat_natCast,
      ← ntohl_take (le_refl 4) (by rw [List.length_drop]; omega), hrest, ntohl_take (le_refl 4) hdr]
  rw [heq, hfill.deliver_eq destroy (fuel + 1 + 1) hf (by omega) hall]
  simp only [deliver, hcast, hfill.rpos]
  rw [if_neg (by omega), if_pos (by omega), pipelined, if_pos (by omega)]
  have hhook : (appHooks destroy).whenReceivedFrame m'.conn.rbuf 0 f.length m'.app =
    some (0, w') := hacc
  simp only [callFrame, Ctx.log, hhook, show ¬ ((0 : ℤ) = -1) by decide, if_false]
  rw [if_pos (by omega), hword]
  exact not_fine_of_frame (pipelined_calls (appHooks destroy) fuel (by omega)) (by omega)

/-- Some sequence of read events is not fine. -/
def Attackable (m : Ctx Addr (AppWorld ω)) : Prop :=
  ∃ scripts, ¬ Fine (readEvents (appHooks destroy) (fuel + 1 + 1) scripts m)

theorem Attackable.step {cs : List RecvChoice}
    (h : Attackable destroy fuel (readHandler (appHooks destroy) (fuel + 1 + 1) cs m)) :
    Attackable destroy fuel m := by
  obtain ⟨scripts, hs⟩ := h
  exact ⟨cs :: scripts, hs⟩

theorem attackable_of_event {cs : List RecvChoice}
    (h : ¬ Fine (readHandler (appHooks destroy) (fuel + 1 + 1) cs m)) :
    Attackable destroy fuel m := ⟨[cs], h⟩

/-- A hostile stream can be used, by induction on what makes it hostile. -/
theorem Hostile.attack {p : Bool} (h : Hostile p s) :
    (p = false → ∀ m : Ctx Addr (AppWorld ω), Boundary s m → Attackable destroy fuel m) ∧
      ∀ (f : List UInt8) (m : Ctx Addr (AppWorld ω)), Passes f →
        f.length + 4 ≤ FRAME_MAX_SIZE → Boundary (f ++ s) m → Attackable destroy fuel m := by
  -- what works at the start of a frame works behind any frame that passes
  have hbehind : ∀ {s : List UInt8},
      (∀ m : Ctx Addr (AppWorld ω), Boundary s m → Attackable destroy fuel m) →
      ∀ (f : List UInt8) (m : Ctx Addr (AppWorld ω)), Passes f →
        f.length + 4 ≤ FRAME_MAX_SIZE → Boundary (f ++ s) m → Attackable destroy fuel m :=
    fun hstart f m hf _ hm => (hstart _ (hm.next destroy (fuel + 1 + 1) hf)).step
  induction h with
  | runt hdr short all =>
    have hstart : ∀ m : Ctx Addr (AppWorld ω), Boundary _ m → Attackable destroy fuel m :=
      fun m hm => attackable_of_event destroy fuel (hm.runt destroy _ short all)
    exact ⟨fun _ => hstart, hbehind hstart⟩
  | wrap hdr long =>
    have hstart : ∀ m : Ctx Addr (AppWorld ω), Boundary _ m → Attackable destroy fuel m :=
      fun m hm => attackable_of_event destroy fuel (hm.wrap destroy _ hdr long)
    exact ⟨fun _ => hstart, hbehind hstart⟩
  | negative hdr long =>
    refine ⟨fun hp => (nomatch hp), ?_⟩
    intro f m hf hsmall hm
    exact attackable_of_event destroy fuel (hm.negative destroy fuel hf hsmall hdr long)
  | @later p s low high all mark next ih =>
    have hlen : (s.take (ntohl s + 4)).length = ntohl s + 4 := by
      rw [List.length_take]
      omega
    have hpass : Passes (s.take (ntohl s + 4)) := by
      refine ⟨by omega, by omega, ?_, ?_⟩
      · rw [hlen, ntohl_take (by omega) (by omega)]
      · rw [hostInt_take (by omega) (by omega)]
        exact mark
    have hstart : ∀ m : Ctx Addr (AppWorld ω), Boundary s m → Attackable destroy fuel m := by
      intro m hm
      rw [← List.take_append_drop (ntohl s + 4) s] at hm
      by_cases hsmall : ntohl s + 4 + 4 ≤ FRAME_MAX_SIZE
      · exact ih.2 _ m hpass (by omega) hm
      · exact (ih.1 (decide_eq_false hsmall) _ (hm.next destroy (fuel + 1 + 1) hpass)).step
    exact ⟨fun _ => hstart, hbehind hstart⟩

end Attack

/-! ### The streams that are safe -/

/-- A clock that starts in the given hour and moves on by an hour at every
reading. -/
def hourly (hour : ℕ) (n : ℕ) : ℤ := SECONDS_ONE_HOUR * (hour + n) - TIMEZONE_FIX_SECONDS

theorem hourly_monotone (hour : ℕ) : Monotone (hourly hour) := by
  intro i j hij
  unfold hourly SECONDS_ONE_HOUR
  omega

theorem hourly_hour (hour n : ℕ) :
    (IoSampling.utcToLocal (hourly hour n)).tdiv SECONDS_ONE_HOUR = hour + n := by
  unfold IoSampling.utcToLocal hourly
  rw [sub_add_cancel]
  exact Int.mul_tdiv_cancel_left _ (by decide)

variable (destroy : ℕ → ω → ω) (c : IoConnection Addr) (fd io : ℤ) (id : ℕ)
  (a : IoAppConnection) (H : Heap) (collector : Option MsMessageBlockQueue) (o : ω)
  (alloc : Bool) (stream : List UInt8)

/-- A connection just initialised, on a clock that suits the client. -/
theorem accepted_boundary (hc : c.Sized) :
    Boundary stream (accepted (c.initializeConn fd io id)
      (AppWorld.start a io id H collector (hourly (a.sampling.currentHour.natAbs + 1)) o)
      alloc stream) := by
  have hhour := hourly_hour (a.sampling.currentHour.natAbs + 1)
  refine ⟨rfl, rfl, Option.some_ne_none fd, rfl, hc.1, hc.2, rfl, rfl, ?_, ?_⟩
  · intro n
    refine lt_of_eq_of_lt (hhour n) (lt_of_lt_of_eq ?_ (hhour (n + 1)).symm)
    push_cast
    omega
  · refine lt_of_lt_of_eq ?_ (hhour 0).symm
    show a.sampling.currentHour < _
    have habs := le_abs_self a.sampling.currentHour
    push_cast
    omega

theorem accepted_harmless (hc : c.Sized) (clock : ℕ → ℤ) (hs : ¬ Hostile false stream) :
    Harmless (accepted (c.initializeConn fd io id) (AppWorld.start a io id H collector clock o)
      alloc stream) := by
  refine ⟨⟨(fun x hx => nomatch hx), (fun x hx => nomatch hx)⟩,
    Or.inr ⟨⟨hc.1, hc.2, Nat.zero_le _⟩, hs, Or.inl ⟨rfl, Or.inl ?_⟩⟩⟩
  show (List.take 0 c.rbuf).length < 4
  rw [List.take_zero]
  decide

/-- **The streams on which no read event hands over a malformed frame** are
exactly those that are not hostile, whatever the connection, its limits and
its owner are. -/
theorem readEvents_fine_iff (hc : c.Sized) (fuel : ℕ) (hfuel : FRAME_MAX_SIZE ≤ fuel) :
    (∀ clock : ℕ → ℤ, Monotone clock → ∀ scripts,
      Fine (readEvents (appHooks destroy) fuel scripts (accepted (c.initializeConn fd io id)
        (AppWorld.start a io id H collector clock o) alloc stream))) ↔
      ¬ Hostile false stream := by
  constructor
  · intro hfine hostile
    obtain ⟨k, rfl⟩ : ∃ k, fuel = k + 1 + 1 := ⟨fuel - 2, by rw [FRAME_MAX_SIZE] at hfuel; omega⟩
    obtain ⟨scripts, hbad⟩ := (hostile.attack destroy k).1 rfl _
      (accepted_boundary c fd io id a H collector o alloc stream hc)
    exact hbad (hfine _ (hourly_monotone _) scripts)
  · intro hs clock _ scripts
    exact (readEvents_harmless scripts
      (accepted_harmless c fd io id a H collector o alloc stream hc clock hs)).fine

/-- One frame of eight bytes, in one piece, is handed over as it should be. -/
theorem readEvents_fine_one_frame :
    Fine (readEvents (appHooks fun _ (o : Unit) => o) 1024 [[.take 7]]
      (accepted ((IoConnection.new Addr).initializeConn 5 0 1)
        (AppWorld.start (IoAppConnection.new 0) 0 1 Heap.empty none (fun _ => 0) ()) true
        [0, 0, 0, 4, 0x6D, 0x69, 0x6D, 0x69])) := by
  have hs : ¬ Hostile false [0, 0, 0, 4, 0x6D, 0x69, 0x6D, 0x69] := by
    intro h
    cases h with
    | runt hdr short all => exact absurd short (by decide)
    | wrap hdr long => exact absurd long (by decide)
    | later low high all mark next => exact not_hostile_of_short (by decide) next
  exact (readEvents_fine_iff _ _ 5 0 1 _ _ _ _ _ _ (IoConnection.new_sized Addr) 1024
    (le_refl _)).mpr hs _ monotone_const _

/-- A length word of zero and the magic word: a frame of four bytes is
handed over, and a message with a data length of minus four is passed to the
processor. -/
theorem readEvents_runt_message :
    let m := readEvents (appHooks fun _ (o : Unit) => o) 1024 [[.take 7]]
      (accepted ((IoConnection.new Addr).initializeConn 5 0 1)
        (AppWorld.start (IoAppConnection.new 0) 0 1 Heap.empty none (fun _ => 0) ()) true
        [0, 0, 0, 0, 0x6D, 0x69, 0x6D, 0x69])
    Act.frame 0 4 8 [0, 0, 0, 0] ∈ m.trace ∧
      m.app.processed.map (fun x => (x.2.frameLen, x.2.dataLen)) = [(4, -4)] ∧ ¬ Fine m := by
  intro m
  have hframe : Act.frame 0 4 8 [0, 0, 0, 0] ∈ m.trace := by decide +kernel
  have hmessage : m.app.processed.map (fun x => (x.2.frameLen, x.2.dataLen)) = [(4, -4)] := by
    decide +kernel
  exact ⟨hframe, hmessage, not_fine_of_frame hframe (by decide)⟩

end Xkim
