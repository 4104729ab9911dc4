/-
MsgHandler/RoundTrip.lean

Messages keep their frame, and come back from the wire.

An `IMessage` carries its length three times over: in `_data_len`, in
`_frame_len` and in the first word of `_b`.  `Framed` says that the three
agree, and that the frame fits the buffer.  Both `createIMessage` functions
establish it, the second one on any frame of at least eight bytes that
`readSocket` hands over, and `fixIMessage` and writes to `_data` keep it, as
long as the frame size can be told as an `int`.  That is not checked: from a
length of `2 ^ 31 - 8` on, `M_FRAME_SIZE` is negative as an `int`, every
buffer passes for large enough, and `_frame_len` is negative.

The other half is the way back.  A framed message of at most `FRAME_MAX_SIZE`
bytes is one frame of the wire format, so by the reassembly of
`MsgHandler/Reassembly.lean` the peer's `readSocket` finds exactly it, and
`createIMessage` around it has the same data.
-/
import MsgHandler.Reassembly
import MsgHandler.Run

namespace Xkim

variable {P σ : Type}

/-! ### Words -/

theorem ntohl_htonl {w : ℕ} (hw : w < 2 ^ 32) (l : List UInt8) : ntohl (htonl w ++ l) = w := by
  show (UInt8.ofNat (w / 2 ^ 24)).toNat * 2 ^ 24 + (UInt8.ofNat (w / 2 ^ 16)).toNat * 2 ^ 16 +
    (UInt8.ofNat (w / 2 ^ 8)).toNat * 2 ^ 8 + (UInt8.ofNat w).toNat = w
  simp only [UInt8.toNat_ofNat']
  omega

theorem hostInt_magic (w : ℕ) (l : List UInt8) :
    hostInt (htonl w ++ [0x6D, 0x69, 0x6D, 0x69] ++ l) 1 = magic := by
  show toInt32 _ = magic
  decide

/-- A 32-bit sum that is at least eight as an `int` has not wrapped around. -/
theorem toInt32_announced {w : ℕ} (hw : w < 2 ^ 32) (h8 : 8 ≤ toInt32 (w + 4)) :
    toInt32 (w + 4) = w + 4 := by
  unfold toInt32 at h8 ⊢
  rw [Int.bmod_eq_emod] at h8 ⊢
  split at h8 <;> split <;> omega

/-! ### What `readSocket` hands over

Whatever the stream, a call of `whenReceivedFrame` with a size of eight or
more is for as many bytes of the buffer, and their length word is this
size. -/

/-- The call is for the frame that its length word announces. -/
def Act.Announced : Act → Prop
  | .frame _ size _ bytes => 8 ≤ size →
      (bytes.length : ℤ) = size ∧ (ntohl bytes : ℤ) + 4 = size ∧ size ≤ FRAME_MAX_SIZE
  | _ => True

/-- The read buffer is in order, `_frame_size` is the announced size when it
is used, and so was every size handed over. -/
structure Announcing (m : Ctx P σ) : Prop where
  rbuf : m.conn.rbuf.length = FRAME_MAX_SIZE
  rsize : m.conn.rsize = FRAME_MAX_SIZE
  rpos : m.conn.rpos ≤ FRAME_MAX_SIZE
  header : m.conn.rsockState = .dataRecv → 4 ≤ m.conn.rpos ∧
    m.conn.frameSize = (ntohl m.conn.rbuf + 4) % 2 ^ 32 ∧ m.conn.frameSize ≤ FRAME_MAX_SIZE
  trace : ∀ a ∈ m.trace, a.Announced

section Announcing

variable {h : IoHooks P σ} {m : Ctx P σ}

theorem Announcing.teardown (hm : Announcing m) (reset : Bool) :
    Announcing (teardown h reset m) := by
  refine ⟨hm.rbuf, hm.rsize, hm.rpos, hm.header, ?_⟩
  intro a ha
  rcases List.mem_append.mp ha with ha | ha
  · exact hm.trace a ha
  · rw [List.mem_singleton.mp ha]
    trivial

theorem Announcing.recv {len : ℕ} {cs : List RecvChoice} {res : RecvResult} {m' : Ctx P σ}
    (hm : Announcing m) (hpost : RecvPost len cs m res m') : Announcing m' := by
  obtain ⟨k, htrace⟩ := hpost.trace
  have hconn := hpost.conn
  refine ⟨hconn ▸ hm.rbuf, hconn ▸ hm.rsize, hconn ▸ hm.rpos, hconn ▸ hm.header, ?_⟩
  intro a ha
  rw [htrace] at ha
  rcases List.mem_append.mp ha with ha | ha
  · exact hm.trace a ha
  · rw [List.eq_of_mem_replicate ha]
    trivial

/-- A call for the frame at offset `b`. -/
theorem Announcing.call {b size : ℤ} (hm : Announcing m) (hb : 0 ≤ b)
    (hend : b + size ≤ m.conn.rpos) (hw : b + 4 ≤ m.conn.rbuf.length)
    (hsize : size = toInt32 (ntohl (m.conn.rbuf.drop b.toNat) + 4)) :
    Announcing (callFrame h b size m).2 := by
  have hrbuf := hm.rbuf
  have hrpos := hm.rpos
  have hconn := (callFrame_conn h b size m).1
  refine ⟨hconn ▸ hm.rbuf, hconn ▸ hm.rsize, hconn ▸ hm.rpos, hconn ▸ hm.header, ?_⟩
  intro a ha
  rw [callFrame_trace] at ha
  rcases List.mem_append.mp ha with ha | ha
  · exact hm.trace a ha
  · rw [List.mem_singleton.mp ha]
    intro h8
    have hlen : 4 ≤ (m.conn.rbuf.drop b.toNat).length := by
      rw [List.length_drop]
      omega
    have hword := toInt32_announced (ntohl_lt (m.conn.rbuf.drop b.toNat)) (hsize ▸ h8)
    refine ⟨?_, ?_, ?_⟩
    · rw [slice, List.length_take, List.length_drop]
      omega
    · rw [slice, ntohl_take (by omega) hlen, ← hword, ← hsize]
    · omega

theorem Announcing.keepRest {b len : ℤ} (hm : Announcing m)
    (hend : b + len = m.conn.rpos) : Announcing (keepRest b len m) := by
  have hrbuf := hm.rbuf
  have hrpos := hm.rpos
  unfold Xkim.keepRest
  split
  · rename_i hin
    refine ⟨?_, hm.rsize, ?_, by rintro ⟨⟩, hm.trace⟩
    · show (slice m.conn.rbuf b len ++ m.conn.rbuf.drop len.toNat).length = _
      rw [List.length_append, slice, List.length_take, List.length_drop, List.length_drop]
      omega
    · show len.toNat ≤ _
      omega
  · exact ⟨hm.rbuf, hm.rsize, hm.rpos, hm.header, hm.trace⟩

/-- **The pipelined loop**, on the bytes from `b` up to `_rpos`.  A negative
size moves `b` back, but the word that is read next lies in the buffer. -/
theorem Announcing.pipelined (fuel : ℕ) {b len size : ℤ} (hm : Announcing m) (hb : 0 ≤ b)
    (hend : b + len = m.conn.rpos) (hw : b + 4 ≤ m.conn.rbuf.length)
    (hsize : size = toInt32 (ntohl (m.conn.rbuf.drop b.toNat) + 4)) :
    Announcing (pipelined h fuel b len size m) := by
  induction fuel generalizing b len size m with
  | zero => exact ⟨hm.rbuf, hm.rsize, hm.rpos, hm.header, hm.trace⟩
  | succ fuel ih =>
    have hcall (hfull : size ≤ len) : Announcing (callFrame h b size m).2 :=
      hm.call hb (by omega) hw hsize
    have hend' : b + size + (len - size) = (callFrame h b size m).2.conn.rpos := by
      rw [(callFrame_conn h b size m).1]
      omega
    refine pipelined_round ?_ ?_ ?_ ?_ ?_ ?_
    · exact fun _ => hm.keepRest hend
    · exact fun hfull _ => hcall hfull
    · exact fun hfull _ => (hcall hfull).teardown true
    · intro hfull _
      have hc := hcall hfull
      exact ⟨hc.rbuf, hc.rsize, hc.rpos, hc.header, hc.trace⟩
    · intro ret w hfull _ _ _ hword
      obtain ⟨hlow, hroom, rfl⟩ := wordAt?_eq_some hword
      exact ih (hcall hfull) hlow hend' hroom rfl
    · exact fun ret hfull _ _ _ => (hcall hfull).keepRest hend'

/-- `deliver`, once the length word has been read. -/
theorem Announcing.deliver (fuel : ℕ) (hm : Announcing m) (hst : m.conn.rsockState = .dataRecv) :
    Announcing (deliver h fuel m) := by
  obtain ⟨h4, hframe, hmax⟩ := hm.header hst
  have hrbuf := hm.rbuf
  rw [FRAME_MAX_SIZE] at hmax hrbuf
  have hword := ntohl_lt m.conn.rbuf
  have hsize : toInt32 m.conn.frameSize = toInt32 (ntohl (m.conn.rbuf.drop (0 : ℤ).toNat) + 4) := by
    rw [hframe]
    unfold toInt32
    rw [Int.natCast_mod]
    exact Int.emod_bmod ..
  have hcall (heq : (m.conn.rpos : ℤ) = toInt32 m.conn.frameSize) :
      Announcing (callFrame h 0 (toInt32 m.conn.frameSize) m).2 :=
    hm.call (le_refl 0) (by omega) (by omega) hsize
  refine deliver_cases ?_ ?_ ?_ ?_ ?_
  · exact fun heq _ => hcall heq
  · exact fun heq _ => (hcall heq).teardown true
  · intro ret m₁ heq hm₁ _
    have hc := hcall heq
    rw [hm₁] at hc
    exact ⟨hc.rbuf, hc.rsize, Nat.zero_le _, by rintro ⟨⟩, hc.trace⟩
  · exact fun _ => hm.pipelined fuel (le_refl 0) (by omega) (by omega) hsize
  · exact fun _ => hm

/-- Bytes stored behind the length word do not change it. -/
theorem Announcing.store {bytes : List UInt8} (hm : Announcing m)
    (hroom : m.conn.rpos + bytes.length ≤ FRAME_MAX_SIZE) : Announcing (store bytes m) := by
  have hrbuf := hm.rbuf
  refine ⟨(store_rbuf_length (by omega)).trans hm.rbuf, hm.rsize, hroom, ?_, hm.trace⟩
  intro hst
  obtain ⟨h4, hframe, hmax⟩ := hm.header hst
  refine ⟨h4.trans (Nat.le_add_right _ _), ?_, hmax⟩
  have hhead : ntohl (m.conn.rbuf.take m.conn.rpos) = ntohl m.conn.rbuf :=
    ntohl_take h4 (by omega)
  have hlen : 4 ≤ (m.conn.rbuf.take m.conn.rpos).length := by
    have := hm.rpos
    rw [List.length_take]
    omega
  show m.conn.frameSize = (ntohl (m.conn.rbuf.take m.conn.rpos ++ bytes ++ _) + 4) % 2 ^ 32
  rw [List.append_assoc, ntohl_append _ _ hlen, hhead]
  exact hframe

theorem Announcing.dataRecv (fuel : ℕ) (hm : Announcing m)
    (hst : m.conn.rsockState = .dataRecv) : Announcing (dataRecv h fuel m) := by
  obtain ⟨-, -, hmax⟩ := hm.header hst
  have hrpos := hm.rpos
  have hleft := toInt32_left hmax hrpos
  unfold Xkim.dataRecv
  dsimp only
  split
  · rename_i hpos
    rcases hrec : Xkim.recv (toInt32 ((m.conn.frameSize : ℤ) - m.conn.rpos)).toNat m.script m
      with ⟨res, m₁⟩
    have hpost := recv_post_of_eq hrec
    have hm₁ := hm.recv hpost
    cases res with
    | got bytes =>
      obtain ⟨-, -, hlen⟩ := hpost.got bytes rfl
      have hroom : m₁.conn.rpos + bytes.length ≤ FRAME_MAX_SIZE := by
        rw [hpost.conn]
        omega
      exact (hm₁.store hroom).deliver fuel (by rw [← hst, ← hpost.conn]; rfl)
    | eof => exact hm₁.teardown false
    | error => exact hm₁.teardown true
    | eagain => exact hm₁
  · exact hm.deliver fuel hst

theorem Announcing.frameHeader (fuel : ℕ) (hm : Announcing m) :
    Announcing (frameHeader h fuel m) := by
  have hrsize := hm.rsize
  unfold Xkim.frameHeader
  split
  · exact hm
  · rename_i h4
    dsimp only
    split
    · refine Announcing.teardown ?_ true
      refine ⟨hm.rbuf, hm.rsize, hm.rpos, ?_, hm.trace⟩
      intro hst
      obtain ⟨-, hframe, hle⟩ := hm.header hst
      exact ⟨not_lt.mp h4, rfl, hframe ▸ hle⟩
    · rename_i hmax
      -- the buffer has its full size from the start
      rw [if_neg (not_grow (not_lt.mp hmax) hrsize)]
      exact Announcing.dataRecv fuel ⟨hm.rbuf, hm.rsize, hm.rpos,
        fun _ => ⟨not_lt.mp h4, rfl, not_lt.mp hmax⟩, hm.trace⟩ rfl

/-- One read event. -/
theorem Announcing.readHandler (fuel : ℕ) (script : List RecvChoice) (hm : Announcing m) :
    Announcing (readHandler h fuel script m) := by
  have hs : Announcing { m with script := script } :=
    ⟨hm.rbuf, hm.rsize, hm.rpos, hm.header, hm.trace⟩
  unfold Xkim.readHandler
  split
  · exact hm
  · unfold readSocket
    split
    · unfold recvFraming
      dsimp only
      rcases hrec : Xkim.recv (m.conn.rsize - m.conn.rpos) script { m with script := script }
        with ⟨res, m₁⟩
      have hpost := recv_post_of_eq hrec
      have hm₁ := hs.recv hpost
      cases res with
      | got bytes =>
        obtain ⟨-, -, hlen⟩ := hpost.got bytes rfl
        have hroom : m₁.conn.rpos + bytes.length ≤ FRAME_MAX_SIZE := by
          have hrsize := hm.rsize
          have hrpos := hm.rpos
          rw [hpost.conn]
          show m.conn.rpos + bytes.length ≤ FRAME_MAX_SIZE
          omega
        exact (hm₁.store hroom).frameHeader fuel
      | eof => exact hm₁.teardown false
      | eagain => exact hm₁.frameHeader fuel
      | error => exact (hm₁.teardown true).frameHeader fuel
    · rename_i hst
      exact hs.dataRecv fuel hst
    · exact ⟨hm.rbuf, hm.rsize, hm.rpos, hm.header, hm.trace⟩

end Announcing

/-- **Every frame handed over** in any sequence of read events on any stream
is the frame its length word announces. -/
theorem readEvents_announced (h : IoHooks P σ) (fuel : ℕ) {c : IoConnection P} (hc : c.Sized)
    (fd io : ℤ) (id : ℕ) (s : σ) (alloc : Bool) (stream : List UInt8)
    (scripts : List (List RecvChoice)) :
    ∀ a ∈ (readEvents h fuel scripts (accepted (c.initializeConn fd io id) s alloc stream)).trace,
      a.Announced := by
  have hrun : ∀ {m : Ctx P σ}, Announcing m → Announcing (readEvents h fuel scripts m) := by
    induction scripts with
    | nil => exact fun hm => hm
    | cons cs scripts ih => exact fun hm => ih (hm.readHandler fuel cs)
  refine (hrun ⟨hc.1, hc.2, Nat.zero_le _, ?_, ?_⟩).trace
  · rintro ⟨⟩
  · intro a ha
    cases ha

/-! ### Messages and their frames -/

/-- The data length, the frame length and the length word agree, the magic
word stands behind it, and the frame fits the buffer. -/
structure IMessage.Framed (m : IMessage) : Prop where
  room : (m.b.length : ℤ) = m.size
  dataLen : 0 ≤ m.dataLen
  frameLen : m.frameLen = m.dataLen + 8
  fits : m.frameLen ≤ m.size
  word : (ntohl m.b : ℤ) = m.frameLen - 4
  mark : hostInt m.b 1 = magic

/-- The first `_frame_len` bytes of `_b`, which `pushMsgData` has sent. -/
def IMessage.frame (m : IMessage) : List UInt8 := m.b.take m.frameLen.toNat

/-- `M_FRAME_SIZE` is negative as an `int` from a length of `2 ^ 31 - 8` on. -/
theorem frameSizeOf_eq {len : ℤ} (h0 : 0 ≤ len) (hfit : len + 8 < 2 ^ 31) :
    frameSizeOf len = len + 8 := by
  unfold frameSizeOf
  rw [toInt32_eq_self] <;> omega

theorem frameSizeOf_neg {len : ℤ} (hint : len < 2 ^ 31) (hbig : 2 ^ 31 ≤ len + 8) :
    frameSizeOf len < 0 := by
  unfold frameSizeOf toInt32
  rw [Int.bmod_eq_emod]
  split <;> omega

/-- The header that both `createIMessage(int)` and `fixIMessage` write. -/
theorem ntohl_header {len : ℤ} (h0 : 0 ≤ len) (hfit : len + 8 < 2 ^ 31) (l : List UInt8) :
    (ntohl (htonl (len + 4).toNat ++ [0x6D, 0x69, 0x6D, 0x69] ++ l) : ℤ) = len + 8 - 4 := by
  rw [List.append_assoc, ntohl_htonl (by omega)]
  omega

namespace IMessage

theorem framed_ofLen {len : ℤ} (h0 : 0 ≤ len) (hfit : len + 8 < 2 ^ 31) :
    (createIMessageOfLen len).Framed := by
  have hsize := frameSizeOf_eq h0 hfit
  refine ⟨?_, h0, hsize, le_refl _, ?_, hostInt_magic _ _⟩
  · show ((htonl (len + 4).toNat ++ [0x6D, 0x69, 0x6D, 0x69] ++
      List.replicate len.toNat 0).length : ℤ) = frameSizeOf len
    rw [hsize, List.length_append, List.length_append, List.length_replicate]
    show ((4 + 4 + len.toNat : ℕ) : ℤ) = len + 8
    omega
  · show _ = frameSizeOf len - 4
    rw [hsize]
    exact ntohl_header h0 hfit _

/-- A frame of at least eight bytes with the magic word makes a framed
message. -/
theorem framed_ofFrame {bytes : List UInt8} {size : ℤ} (h8 : 8 ≤ size)
    (hlen : (bytes.length : ℤ) = size) (hword : (ntohl bytes : ℤ) + 4 = size)
    (hmax : size ≤ FRAME_MAX_SIZE) (hmark : hostInt bytes 1 = magic) :
    (createIMessage bytes size).Framed := by
  rw [FRAME_MAX_SIZE] at hmax
  have hall : bytes.take size.toNat = bytes := List.take_of_length_le (by omega)
  have hdata : frameDataSize size = size - 8 := frameDataSize_eq (by omega) (by omega)
  refine ⟨?_, ?_, ?_, ?_, ?_, ?_⟩
  · show ((bytes.take size.toNat ++ List.replicate 32 0).length : ℤ) = size + 32
    rw [hall, List.length_append, List.length_replicate]
    omega
  · show 0 ≤ frameDataSize size
    omega
  · show size = frameDataSize size + 8
    omega
  · show size ≤ size + 32
    omega
  · show (ntohl (bytes.take size.toNat ++ List.replicate 32 0) : ℤ) = size - 4
    rw [hall, ntohl_append _ _ (by omega)]
    omega
  · show hostInt (bytes.take size.toNat ++ List.replicate 32 0) 1 = magic
    rw [hall, hostInt_append _ (by omega)]
    exact hmark

variable {m : IMessage}

/-- `fixIMessage`, in place or in a new buffer. -/
theorem Framed.fix (h : m.Framed) {len : ℤ} (h0 : 0 ≤ len) (hfit : len + 8 < 2 ^ 31) :
    (fixIMessage m len).Framed := by
  have hsize := frameSizeOf_eq h0 hfit
  obtain ⟨hroom, hdata, hframe, hfits, -, -⟩ := h
  unfold fixIMessage
  dsimp only
  split
  · rename_i hbig
    refine ⟨?_, h0, hsize, hbig, ?_, hostInt_magic _ _⟩
    · show ((htonl (len + 4).toNat ++ [0x6D, 0x69, 0x6D, 0x69] ++ m.b.drop 8).length : ℤ) = m.size
      rw [List.length_append, List.length_append, List.length_drop]
      show ((4 + 4 + (m.b.length - 8) : ℕ) : ℤ) = m.size
      omega
    · show _ = frameSizeOf len - 4
      rw [hsize]
      exact ntohl_header h0 hfit _
  · refine ⟨?_, h0, hsize, le_refl _, ?_, hostInt_magic _ _⟩
    · exact (framed_ofLen h0 hfit).room
    · exact (framed_ofLen h0 hfit).word

/-- A length for which `M_FRAME_SIZE` overflows breaks the frame. -/
theorem not_framed_fix {len : ℤ} (h0 : 0 ≤ len) (hint : len < 2 ^ 31) (hbig : 2 ^ 31 ≤ len + 8) :
    ¬ (fixIMessage m len).Framed := by
  have hneg := frameSizeOf_neg hint hbig
  have hlens : (fixIMessage m len).frameLen = frameSizeOf len ∧
      (fixIMessage m len).dataLen = len := by
    unfold fixIMessage
    dsimp only
    split <;> exact ⟨rfl, rfl⟩
  intro h
  have hframe := h.frameLen
  rw [hlens.1, hlens.2] at hframe
  omega

/-- Writing `_data_len` bytes at `_data`. -/
theorem Framed.write (h : m.Framed) {bytes : List UInt8} (hbytes : bytes.length = m.dataLen) :
    (m.writeData bytes).Framed := by
  obtain ⟨hroom, hdata, hframe, hfits, hword, hmark⟩ := h
  have hhead : 8 ≤ (m.b.take 8).length := by
    rw [List.length_take]
    omega
  refine ⟨?_, hdata, hframe, hfits, ?_, ?_⟩
  · show ((m.b.take 8 ++ bytes ++ m.b.drop (8 + bytes.length)).length : ℤ) = m.size
    rw [List.length_append, List.length_append, List.length_take, List.length_drop]
    omega
  · show (ntohl (m.b.take 8 ++ bytes ++ m.b.drop (8 + bytes.length)) : ℤ) = m.frameLen - 4
    rw [List.append_assoc, ntohl_append _ _ (by omega), ntohl_take (by omega) (by omega)]
    exact hword
  · show hostInt (m.b.take 8 ++ bytes ++ m.b.drop (8 + bytes.length)) 1 = magic
    rw [List.append_assoc, hostInt_append _ (by omega), hostInt_take (by omega) (by omega)]
    exact hmark

theorem Framed.length_frame (h : m.Framed) : (m.frame.length : ℤ) = m.frameLen := by
  obtain ⟨hroom, hdata, hframe, hfits, -, -⟩ := h
  rw [frame, List.length_take]
  omega

/-- What is sent is one frame of the wire format. -/
theorem Framed.isFrame (h : m.Framed) : wire.IsFrame m.frame := by
  have hlen := h.length_frame
  obtain ⟨hroom, hdata, hframe, hfits, hword, -⟩ := h
  refine ⟨?_, ?_⟩
  · rw [wire_hdr]
    omega
  · have hhead : ntohl m.frame = ntohl m.b := ntohl_take (by omega) (by omega)
    rw [wire_size, hhead]
    omega

/-- **The message around the frame of a message has its data.** -/
theorem Framed.data_received (h : m.Framed) (hmax : m.frameLen ≤ FRAME_MAX_SIZE) :
    (createIMessage m.frame m.frame.length).dataLen = m.dataLen ∧
      (createIMessage m.frame m.frame.length).data = m.data := by
  have hlen := h.length_frame
  obtain ⟨hroom, hdata, hframe, hfits, -, -⟩ := h
  rw [FRAME_MAX_SIZE] at hmax
  have hsize : (createIMessage m.frame m.frame.length).dataLen = m.dataLen := by
    rw [createIMessage_dataLen, frameDataSize_eq (by omega) (by omega)]
    omega
  refine ⟨hsize, ?_⟩
  have hb : (createIMessage m.frame m.frame.length).b = m.frame ++ List.replicate 32 0 := by
    show m.frame.take (m.frame.length : ℤ).toNat ++ _ = _
    rw [Int.toNat_natCast, List.take_length]
  have hn : m.frameLen.toNat - 8 = m.dataLen.toNat := by omega
  rw [data, hsize, hb, List.drop_append_of_le_length (by omega)]
  rw [List.take_append_of_le_length (by rw [List.length_drop]; omega)]
  show ((m.b.take m.frameLen.toNat).drop 8).take m.dataLen.toNat = (m.b.drop 8).take m.dataLen.toNat
  rw [List.drop_take, List.take_take, hn, min_self]

/-- A payload written to the message comes back: whenever a peer has read the
frame of the message to its end, in any pieces, it has found exactly one
frame, and the message it makes of it holds the payload. -/
def RoundTrips (m : IMessage) : Prop :=
  ∀ (payload : List UInt8), (payload.length : ℤ) = m.dataLen → payload.length ≤ 1016 →
    ∀ (P σ : Type) (h : IoHooks P σ),
      (∀ mem b size s, ∃ s', h.whenReceivedFrame mem b size s = some (0, s')) →
      ∀ (fuel : ℕ), FRAME_MAX_SIZE ≤ fuel → ∀ (c : IoConnection P), c.Sized →
      ∀ (fd io : ℤ) (id : ℕ) (s : σ) (alloc : Bool) (scripts : List (List RecvChoice)),
        (∀ cs ∈ scripts, Benign cs) →
        (readEvents h fuel scripts
          (accepted (c.initializeConn fd io id) s alloc (m.writeData payload).frame)).unread = [] →
        ∃ b n, framesOf (readEvents h fuel scripts
            (accepted (c.initializeConn fd io id) s alloc (m.writeData payload).frame)).trace =
              [(b, n)] ∧
          (createIMessage b n).dataLen = payload.length ∧ (createIMessage b n).data = payload

/-- A peer that has read the frame of a message has found this frame alone. -/
theorem Framed.handed_over (hm : m.Framed) (hmax : m.frameLen ≤ FRAME_MAX_SIZE) {h : IoHooks P σ}
    (hacc : ∀ mem b size s, ∃ s', h.whenReceivedFrame mem b size s = some (0, s')) {fuel : ℕ}
    (hfuel : FRAME_MAX_SIZE ≤ fuel) {c : IoConnection P} (hc : c.Sized) (fd io : ℤ) (id : ℕ) (s : σ)
    (alloc : Bool) {scripts : List (List RecvChoice)} (hcs : ∀ cs ∈ scripts, Benign cs)
    (hunread : (readEvents h fuel scripts
      (accepted (c.initializeConn fd io id) s alloc m.frame)).unread = []) :
    framesOf (readEvents h fuel scripts
      (accepted (c.initializeConn fd io id) s alloc m.frame)).trace =
        [(m.frame, (m.frame.length : ℤ))] := by
  have hlen := hm.length_frame
  -- the stream is this one frame, and nothing of another one
  have hs : WellFramed [m.frame] [] := by
    refine ⟨?_, ?_, [0, 0, 0, 0], ⟨by decide, rfl⟩, by decide, List.nil_prefix, by decide⟩
    · intro f hf
      rw [List.mem_singleton.mp hf]
      exact hm.isFrame
    · intro f hf
      rw [List.mem_singleton.mp hf]
      omega
  have hread := readEvents_reading hacc hfuel scripts hcs
    (accepted_reading hc fd io id s alloc hs)
  rw [show [m.frame].flatten ++ [] = m.frame by simp] at hread
  exact hread.handed_over hunread

/-- **The round trip** of a framed message. -/
theorem Framed.roundTrips (h : m.Framed) : m.RoundTrips := by
  intro payload hlen hmax P σ hooks hacc fuel hfuel c hc fd io id s alloc scripts hcs hunread
  have hwritten := h.write hlen
  have hfit : (m.writeData payload).frameLen ≤ FRAME_MAX_SIZE := by
    have hframe : m.frameLen = m.dataLen + 8 := h.frameLen
    show m.frameLen ≤ FRAME_MAX_SIZE
    rw [FRAME_MAX_SIZE]
    omega
  have hroom : 8 ≤ m.b.length := by
    have h₁ := h.room
    have h₂ := h.fits
    have h₃ := h.frameLen
    omega
  obtain ⟨hsize, hdata⟩ := hwritten.data_received hfit
  refine ⟨_, _, hwritten.handed_over hfit hacc hfuel hc fd io id s alloc hcs hunread, ?_, ?_⟩
  · rw [hsize]
    exact hlen.symm
  · rw [hdata]
    exact data_writeData hroom hlen.symm

end IMessage

/-! ### Sequences of changes -/

/-- An `IMessage` with the addresses of its buffer and of its data. -/
structure Placed where
  msg : IMessage
  /-- `_b` -/
  b : ℕ
  /-- `_data` -/
  data : ℕ

namespace Placed

/-- `createIMessage(len)`, with the buffer that `malloc` returns. -/
def createOfLen (buf : ℕ) (len : ℤ) : Placed := ⟨createIMessageOfLen len, buf, buf + 4 + 4⟩

/-- `createIMessage(b, len)`. -/
def create (buf : ℕ) (b : List UInt8) (len : ℤ) : Placed := ⟨createIMessage b len, buf, buf + 4 + 4⟩

/-- `fixIMessage(msg, len)`: the pointers change with the buffer only. -/
def fix (buf : ℕ) (len : ℤ) (m : Placed) : Placed :=
  if m.msg.size ≥ frameSizeOf len then { m with msg := fixIMessage m.msg len }
  else ⟨fixIMessage m.msg len, buf, buf + 4 + 4⟩

/-- `_data` is behind the two header words, and the message is framed. -/
structure Framed (m : Placed) : Prop where
  data : m.data = m.b + 8
  msg : m.msg.Framed

/-- A change to a message: `fixIMessage` with a length (and the buffer that
`malloc` returns if it is called), or a write at `_data`. -/
inductive Edit
  | fix (len : ℤ) (buf : ℕ)
  | write (bytes : List UInt8)

/-- The changes the code makes: `fixIMessage` with an `int` that is not
negative, and writes of `_data_len` bytes. -/
def step (m : Placed) : Edit → Option Placed
  | .fix len buf => if 0 ≤ len ∧ len < 2 ^ 31 then some (m.fix buf len) else none
  | .write bytes =>
    if bytes.length = m.msg.dataLen then some { m with msg := m.msg.writeData bytes } else none

/-- `M_FRAME_SIZE` of the length is an `int`. -/
def Fits (_ : Placed) : Edit → Prop
  | .fix len _ => len + 8 < 2 ^ 31
  | .write _ => True

/-- A message as it is created.  `createIMessage(len)` aborts when `malloc`
fails, as it does for a negative size; `createIMessage(b, len)` is called by
`whenReceivedFrame`, for a frame with the magic word. -/
inductive Created : Placed → Prop
  | ofLen (buf : ℕ) {len : ℤ} (h0 : 0 ≤ len) (hint : len < 2 ^ 31)
      (hmalloc : 0 ≤ frameSizeOf len) : Created (createOfLen buf len)
  | ofFrame (buf : ℕ) {P σ : Type} (h : IoHooks P σ) (fuel : ℕ) {c : IoConnection P} (hc : c.Sized)
      (fd io : ℤ) (id : ℕ) (s : σ) (alloc : Bool) (stream : List UInt8)
      (scripts : List (List RecvChoice)) {b size : ℤ} {rpos : ℕ} {bytes : List UInt8}
      (hframe : Act.frame b size rpos bytes ∈ (readEvents h fuel scripts
        (accepted (c.initializeConn fd io id) s alloc stream)).trace)
      (h8 : 8 ≤ size) (hmark : hostInt bytes 1 = magic) : Created (create buf bytes size)

theorem Created.framed {m : Placed} (h : Created m) : m.Framed := by
  cases h with
  | ofLen buf h0 hint hmalloc =>
    refine ⟨rfl, IMessage.framed_ofLen h0 ?_⟩
    by_contra hbig
    have hneg := frameSizeOf_neg hint (not_lt.mp hbig)
    omega
  | ofFrame buf h fuel hc fd io id s alloc stream scripts hframe h8 hmark =>
    obtain ⟨hlen, hword, hmax⟩ :=
      readEvents_announced h fuel hc fd io id s alloc stream scripts _ hframe h8
    exact ⟨rfl, IMessage.framed_ofFrame h8 hlen hword hmax hmark⟩

/-- **One change.** -/
theorem Framed.step {m m' : Placed} {e : Edit} (h : m.Framed) (hfit : Fits m e)
    (hstep : step m e = some m') : m'.Framed := by
  cases e with
  | fix len buf =>
    obtain ⟨hlen, rfl⟩ := Option.ite_none_right_eq_some.mp hstep |>.imp_right Option.some.inj
    have hfixed := h.msg.fix hlen.1 hfit
    unfold fix
    split
    · exact ⟨h.data, hfixed⟩
    · exact ⟨rfl, hfixed⟩
  | write bytes =>
    obtain ⟨hlen, rfl⟩ := Option.ite_none_right_eq_some.mp hstep |>.imp_right Option.some.inj
    exact ⟨h.data, h.msg.write hlen⟩

/-- A change that leaves the message framed is one that fits. -/
theorem fits_of_framed {m m' : Placed} {e : Edit} (hstep : Placed.step m e = some m')
    (h : m'.Framed) : Fits m e := by
  cases e with
  | fix len buf =>
    obtain ⟨hlen, rfl⟩ := Option.ite_none_right_eq_some.mp hstep |>.imp_right Option.some.inj
    by_contra hbig
    refine IMessage.not_framed_fix hlen.1 hlen.2 (not_lt.mp hbig) (m := m.msg) ?_
    have hmsg := h.msg
    unfold fix at hmsg
    split at hmsg <;> exact hmsg
  | write bytes => trivial

/-- **Frames survive exactly the lengths whose frame size is an `int`.**  A
message starts in either `createIMessage`; through any sequence of
`fixIMessage` calls and writes of its data it stays framed, and every payload
of up to 1016 bytes comes back from the wire, if and only if every length
given to `fixIMessage` is below `2 ^ 31 - 8`. -/
theorem framed_iff_fits {m : Placed} (hm : Created m) (es : List Edit) :
    Always Placed.step (fun m => m.Framed ∧ m.msg.RoundTrips) m es ↔
      Guarded Placed.step Fits m es := by
  refine always_iff_guarded (I := Framed) (K := fun _ _ => True) ?_ ?_ ?_ hm.framed
    (guarded_true _ _)
  · intro m e m' h _ hfit hstep
    exact h.step hfit hstep
  · intro m h
    exact ⟨h, h.msg.roundTrips⟩
  · intro m e m' _ _ hstep h
    exact fits_of_framed hstep h.1

/-- The received frame of the two bytes 1 and 2 grows beyond its 42 bytes,
shrinks to nothing, and is then given a payload of three bytes. -/
theorem framed_iff_fits_received :
    Always Placed.step (fun m => m.Framed ∧ m.msg.RoundTrips)
      (create 100 [0, 0, 0, 6, 0x6D, 0x69, 0x6D, 0x69, 1, 2] 10)
      [.fix 40 200, .fix 0 300, .fix 3 400, .write [7, 8, 9]] := by
  have hrun : Act.frame 0 10 10 [0, 0, 0, 6, 0x6D, 0x69, 0x6D, 0x69, 1, 2] ∈
      (readEvents IoHooks.base 1024 [[.take 20]]
        (accepted ((IoConnection.new Unit).initializeConn 5 0 1) () true
          [0, 0, 0, 6, 0x6D, 0x69, 0x6D, 0x69, 1, 2])).trace := by
    decide +kernel
  refine (framed_iff_fits (Created.ofFrame 100 _ _ (IoConnection.new_sized Unit) _ _ _ _ _ _ _
    hrun (by decide) (by decide)) _).mpr (Guarded.of_forall ?_)
  intro e he m
  simp only [List.mem_cons, List.not_mem_nil, or_false] at he
  rcases he with rfl | rfl | rfl | rfl
  · show (40 : ℤ) + 8 < 2 ^ 31
    decide
  · show (0 : ℤ) + 8 < 2 ^ 31
    decide
  · show (3 : ℤ) + 8 < 2 ^ 31
    decide
  · trivial

/-- **The smallest length that overflows**: an empty message passes for large
enough, and its frame length becomes negative. -/
theorem fix_overflow :
    Created (createOfLen 0 0) ∧
      (Placed.step (createOfLen 0 0) (.fix (2 ^ 31 - 8) 0)).map (fun m =>
        (m.msg.size, m.msg.dataLen, m.msg.frameLen)) = some (8, 2 ^ 31 - 8, -2 ^ 31) ∧
      ¬ Always Placed.step Framed (createOfLen 0 0) [.fix (2 ^ 31 - 8) 0] := by
  refine ⟨Created.ofLen 0 (le_refl 0) (by decide) (by decide), by decide, ?_⟩
  intro h
  have hfit : (2 ^ 31 - 8 : ℤ) + 8 < 2 ^ 31 :=
    fits_of_framed (e := .fix (2 ^ 31 - 8) 0) rfl (h.2 _ rfl)
  exact absurd hfit (by decide)

end Placed

end Xkim
