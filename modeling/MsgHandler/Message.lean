/-
MsgHandler/Message.lean

Frames and messages (`framework/ms/ms_message.{h,cpp}`).

A frame is a big-endian length word, a magic word and the data.  The length
word counts what follows it, so a frame whose word is `w` occupies `w + 4`
bytes.  Bytes are `UInt8`; words read from the wire are naturals below
`2 ^ 32`, and the two conversions the C++ code applies to them (to `int`,
and from `int` to `uint64_t`) are spelled out as `toInt32` and `toUInt64`.

An `IMessage` is modelled by value: `_data` is always `_b + 8`, so it is not
a field, and the `_next` link belongs to the heap of `MsgHandler/Heap.lean`.
`malloc` leaves `_state`, `_id`, `_from`, `_to` and the time stamps
unspecified; they are zero here until the code sets them.
-/
import MsgHandler.Framing

namespace Xkim

/-! ### Machine words -/

/-- Conversion to a 32-bit signed `int`. -/
def toInt32 (n : ℤ) : ℤ := n.bmod (2 ^ 32)

/-- The greatest `int`. -/
def INT_MAX : ℕ := 2 ^ 31 - 1

/-- Conversion to a 64-bit unsigned integer. -/
def toUInt64 (n : ℤ) : ℕ := (n % 2 ^ 64).toNat

/-- Conversion to a 32-bit unsigned integer. -/
def toUInt32 (n : ℤ) : ℕ := (n % 2 ^ 32).toNat

theorem toInt32_eq_self {n : ℤ} (h₁ : -2 ^ 31 ≤ n) (h₂ : n < 2 ^ 31) :
    toInt32 n = n := by
  unfold toInt32
  rw [Int.bmod_eq_emod]
  split <;> omega

theorem toInt32_natCast {n : ℕ} (h : n < 2 ^ 31) : toInt32 n = n := by
  rw [toInt32_eq_self] <;> omega

/-- The size that a length word announces. -/
theorem toInt32_natCast_add_four {n : ℕ} (h : n + 4 < 2 ^ 31) :
    toInt32 ((n : ℤ) + 4) = (n + 4 : ℕ) := by
  rw [toInt32_eq_self] <;> omega

theorem toUInt64_natCast {n : ℕ} (h : n < 2 ^ 64) : toUInt64 n = n := by
  unfold toUInt64
  omega

/-! ### The length word -/

/-- `ntohl(*((unsigned int*)p))`: the big-endian value of the first four
bytes (zero when there are fewer; no caller reads a word it does not have). -/
def ntohl : List UInt8 → ℕ
  | a :: b :: c :: d :: _ =>
      a.toNat * 2 ^ 24 + b.toNat * 2 ^ 16 + c.toNat * 2 ^ 8 + d.toNat
  | _ => 0

/-- The four bytes of a word in network order. -/
def htonl (w : ℕ) : List UInt8 :=
  [UInt8.ofNat (w / 2 ^ 24), UInt8.ofNat (w / 2 ^ 16), UInt8.ofNat (w / 2 ^ 8),
    UInt8.ofNat w]

theorem ntohl_lt (l : List UInt8) : ntohl l < 2 ^ 32 := by
  unfold ntohl
  split
  · rename_i a b c d _
    have ha := a.toNat_lt
    have hb := b.toNat_lt
    have hc := c.toNat_lt
    have hd := d.toNat_lt
    omega
  · decide

theorem ntohl_of_short {l : List UInt8} (h : l.length < 4) : ntohl l = 0 := by
  unfold ntohl
  split
  · simp only [List.length_cons] at h
    omega
  · rfl

theorem ntohl_append (l l' : List UInt8) (h : 4 ≤ l.length) :
    ntohl (l ++ l') = ntohl l := by
  match l, h with
  | a :: b :: c :: d :: l, _ => rfl

theorem ntohl_take {l : List UInt8} {n : ℕ} (hn : 4 ≤ n) (h : 4 ≤ l.length) :
    ntohl (l.take n) = ntohl l := by
  have hlen : 4 ≤ (l.take n).length := by
    rw [List.length_take]
    omega
  rw [← ntohl_append (l.take n) (l.drop n) hlen, List.take_append_drop]

/-- The wire framing: a four-byte word `w` opens a frame of `w + 4` bytes. -/
def wire : Framing UInt8 where
  hdr := 4
  size l := ntohl l + 4
  size_append l l' h := by rw [ntohl_append l l' h]

@[simp] theorem wire_hdr : wire.hdr = 4 := rfl

@[simp] theorem wire_size (l : List UInt8) : wire.size l = ntohl l + 4 := rfl

/-! ### Messages -/

/-- `ms::magic`. -/
def magic : ℤ := 0x696D696D

/-- `((int*)p)[i]`: the `i`-th `int` at `p`, in the byte order of the host
(little-endian). -/
def hostInt (p : List UInt8) (i : ℕ) : ℤ :=
  match p.drop (4 * i) with
  | a :: b :: c :: d :: _ =>
      toInt32 (a.toNat + b.toNat * 2 ^ 8 + c.toNat * 2 ^ 16 + d.toNat * 2 ^ 24)
  | _ => 0

theorem hostInt_append {l : List UInt8} {i : ℕ} (l' : List UInt8) (h : 4 * i + 4 ≤ l.length) :
    hostInt (l ++ l') i = hostInt l i := by
  have hlen : 4 ≤ (l.drop (4 * i)).length := by
    rw [List.length_drop]
    omega
  rw [hostInt, hostInt, List.drop_append_of_le_length (by omega)]
  match l.drop (4 * i), hlen with
  | a :: b :: c :: d :: _, _ => rfl

theorem hostInt_take {l : List UInt8} {i n : ℕ} (hn : 4 * i + 4 ≤ n)
    (h : 4 * i + 4 ≤ l.length) : hostInt (l.take n) i = hostInt l i := by
  have hlen : 4 * i + 4 ≤ (l.take n).length := by
    rw [List.length_take]
    omega
  rw [← hostInt_append (l.drop n) hlen, List.take_append_drop]

/-- `MESSAGE_STATE` (`message/im_message_define.h`). -/
def INIT_STATE : ℤ := 0

/-- See `INIT_STATE`. -/
def AUTH_STATE : ℤ := 1

/-- See `INIT_STATE`. -/
def MSG_STATE : ℤ := 2

/-- `MESSAGE_TYPE` and `MESSAGE_SOURCE` values used below. -/
def APP : ℕ := 1

/-- `ms::IMessage`, less its `_next` link. -/
structure IMessage where
  b : List UInt8
  size : ℤ
  dataLen : ℤ
  frameLen : ℤ
  state : ℤ := 0
  uid : ℤ := -1
  io : ℤ := -1
  conn : ℕ := toUInt64 (-1)
  id : List UInt8 := []
  priority : ℕ := 15
  needCollect : Bool := false
  forcePush : Bool := false
  closeConn : Bool := false
  type : ℕ := 0
  «from» : ℕ := 0
  «to» : ℕ := 0
  /-- `_switch_state` is null or `switch_state_app_msg`. -/
  switchState : Bool := false
  /-- `_gen_time.tv_sec` -/
  genTime : ℤ := 0
  deriving DecidableEq, Repr

/-- The `_data_len` bytes at `_data`. -/
def IMessage.data (m : IMessage) : List UInt8 :=
  (m.b.drop 8).take m.dataLen.toNat

/-- `M_FRAME_DATA_SIZE(len)`, computed in `size_t` and stored in an `int`. -/
def frameDataSize (len : ℤ) : ℤ := toInt32 (len - 4 - 4)

/-- `M_FRAME_SIZE(len)`, stored in an `int`. -/
def frameSizeOf (len : ℤ) : ℤ := toInt32 (len + 4 + 4)

/-- `createIMessage(const char* b, int len)`: a message around a received
frame, with 32 spare bytes for the reply. -/
def createIMessage (b : List UInt8) (len : ℤ) : IMessage where
  b := b.take len.toNat ++ List.replicate 32 0
  size := len + 32
  dataLen := frameDataSize len
  frameLen := len

/-- `createIMessage(int len)`: an empty frame with room for `len` data
bytes. -/
def createIMessageOfLen (len : ℤ) : IMessage where
  b := htonl (len + 4).toNat ++ [0x6D, 0x69, 0x6D, 0x69] ++ List.replicate len.toNat 0
  size := frameSizeOf len
  dataLen := len
  frameLen := frameSizeOf len

/-- `fixIMessage(msg, len)`: make room for `len` data bytes, in place when
the buffer is large enough, and rewrite the two header words. -/
def fixIMessage (msg : IMessage) (len : ℤ) : IMessage :=
  let want := frameSizeOf len
  let header := htonl (len + 4).toNat ++ [0x6D, 0x69, 0x6D, 0x69]
  if msg.size ≥ want then
    { msg with b := header ++ msg.b.drop 8, dataLen := len, frameLen := want }
  else
    { msg with
      b := header ++ List.replicate len.toNat 0
      size := want
      dataLen := len
      frameLen := want }

/-- Write `bytes` at `_data`. -/
def IMessage.writeData (m : IMessage) (bytes : List UInt8) : IMessage :=
  { m with b := m.b.take 8 ++ bytes ++ m.b.drop (8 + bytes.length) }

@[simp] theorem createIMessage_dataLen (b : List UInt8) (len : ℤ) :
    (createIMessage b len).dataLen = frameDataSize len := rfl

theorem frameDataSize_eq {len : ℤ} (h₁ : -2 ^ 30 ≤ len) (h₂ : len < 2 ^ 31) :
    frameDataSize len = len - 8 := by
  unfold frameDataSize
  rw [toInt32_eq_self] <;> omega

/-- What is written at `_data` is what the message holds. -/
theorem data_writeData {m : IMessage} {bytes : List UInt8} (hb : 8 ≤ m.b.length)
    (hlen : m.dataLen = bytes.length) : (m.writeData bytes).data = bytes := by
  have hhead : (m.b.take 8).length = 8 := by
    rw [List.length_take]
    omega
  unfold IMessage.data IMessage.writeData
  dsimp only
  rw [List.append_assoc, List.drop_left' hhead, hlen]
  exact List.take_left

theorem createIMessageOfLen_room (n : ℕ) : 8 ≤ (createIMessageOfLen n).b.length := by
  simp [createIMessageOfLen, htonl]

theorem fixIMessage_room (m : IMessage) (n : ℕ) :
    8 ≤ (fixIMessage m n).b.length ∧ (fixIMessage m n).dataLen = n := by
  unfold fixIMessage
  dsimp only
  split <;> exact ⟨by simp [htonl], rfl⟩

end Xkim
