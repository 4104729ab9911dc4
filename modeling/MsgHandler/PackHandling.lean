/-
MsgHandler/PackHandling.lean

Two properties of the handlers of a pack: stale packs are refused, and the
ack and the forwarded message carry one id.

The age of a pack is the difference of two `int`s, computed in `int`.  The
time of receipt is the server's, but the time stamp is the client's, so the
difference can leave the `int` range: a pack that claims to be more than
`2 ^ 31` seconds old has a negative age, and passes for fresh.

An accepted IM_MSG pack is answered by a new message, and its own message is
changed in place before it goes to the broker: the id is put into the pack if
it is a request, and the pack is serialised into the same buffer, which may
have to grow for it.  Both messages are framed in the sense of
`MsgHandler/RoundTrip.lean`, so nothing is written outside their buffers.
-/
import MsgHandler.AppConnection
import MsgHandler.Broker
import MsgHandler.RoundTrip

namespace Xkim

open ImMessageParser

/-! ### Stale packs -/

/-- The time stamp of the pack, zero if it has none. -/
def IMessagePack.packTs (pack : IMessagePack) : ℤ := pack.data.ts.getD 0

/-- The time of receipt, counted as the time stamps are. -/
def IMessagePack.nowTs (pack : IMessagePack) : ℤ := pack.msg.genTime - TIMESTAMP_20150101000000

/-- A 32-bit value, and a time of receipt that fits in 32 bits. -/
structure IMessagePack.Timed (pack : IMessagePack) : Prop where
  ts : -2 ^ 31 ≤ pack.packTs ∧ pack.packTs < 2 ^ 31
  now : -2 ^ 31 ≤ pack.nowTs ∧ pack.nowTs < 2 ^ 31

/-- The pack is more than `TIMESTAMP_GAP` seconds old. -/
def IMessagePack.Stale (pack : IMessagePack) : Prop := TIMESTAMP_GAP < pack.nowTs - pack.packTs

instance (pack : IMessagePack) : Decidable pack.Stale :=
  inferInstanceAs (Decidable (TIMESTAMP_GAP < pack.nowTs - pack.packTs))

/-- No handler acts on the pack: each returns -1, with nothing changed and
nothing called. -/
structure Job.Refuses (pack : IMessagePack) : Prop where
  touch : ∀ C host now j, j.pack = some pack →
    App.processTouchPack C host now j = some (-1, j)
  msg : ∀ C now mid ret collects j, j.pack = some pack →
    App.processMsgPack C now mid ret collects j = some (-1, j)
  auth : ∀ C now j, j.pack = some pack → App.processAuthPack C now j = some (-1, j)
  firstAuth : ∀ C host now j, j.pack = some pack →
    Auth.processAuthPack C host now j = some (-1, j)

/-- Every handler begins with the same check. -/
theorem Job.refuses_of_checkTimeStamp {pack : IMessagePack} (h : checkTimeStamp pack = -1) :
    Job.Refuses pack := by
  refine ⟨?_, ?_, ?_, ?_⟩
  · intro C host now j hj
    rw [App.processTouchPack, hj, Option.bind_some, if_pos h]
  · intro C now mid ret collects j hj
    rw [App.processMsgPack, hj, Option.bind_some, if_pos h]
  · intro C now j hj
    rw [App.processAuthPack, hj, Option.bind_some, if_pos h]
  · intro C host now j hj
    rw [Auth.processAuthPack, hj, Option.bind_some, if_pos h]

/-- The age of a stale pack is found too large unless it overflows. -/
theorem checkTimeStamp_iff_of_stale {pack : IMessagePack} (ht : pack.Timed) (hs : pack.Stale) :
    checkTimeStamp pack = -1 ↔ pack.nowTs - pack.packTs < 2 ^ 31 := by
  obtain ⟨hts, hnow⟩ := ht
  have hgap : (30 : ℤ) < pack.nowTs - pack.packTs := hs
  have hcheck : checkTimeStamp pack =
      if toInt32 (toInt32 pack.nowTs - pack.packTs) > 30 then -1 else 0 := rfl
  rw [hcheck, toInt32_eq_self hnow.1 hnow.2]
  constructor
  · intro h
    by_contra hbig
    -- the difference wraps around to a negative age
    have hneg : toInt32 (pack.nowTs - pack.packTs) ≤ 0 := by
      unfold toInt32
      rw [Int.bmod_eq_emod]
      split <;> omega
    rw [if_neg (by omega)] at h
    cases h
  · intro hsmall
    rw [toInt32_eq_self (by omega) hsmall, if_pos hgap]

/-- **Stale packs are rejected exactly below `2 ^ 31` seconds of age**: then
`checkTimeStamp` returns -1, and none of the four handlers acks, registers,
dispatches or authenticates. -/
theorem stale_refused_iff {pack : IMessagePack} (ht : pack.Timed) (hs : pack.Stale) :
    checkTimeStamp pack = -1 ∧ Job.Refuses pack ↔ pack.nowTs - pack.packTs < 2 ^ 31 := by
  rw [← checkTimeStamp_iff_of_stale ht hs]
  exact ⟨fun h => h.1, fun h => ⟨h, Job.refuses_of_checkTimeStamp h⟩⟩

/-- A request of the user 7 to the user 9 without a time stamp, received `age` seconds
into 2015 on a connection that may send requests. -/
def unstamped (age : ℤ) : IMessagePack where
  msg := { createIMessageOfLen 0 with
    state := MSG_STATE, genTime := TIMESTAMP_20150101000000 + age }
  data :=
    { type := some .msg
      content := some
        { msg := some { uid := some 7, seq := some 5, targetUid := [9], type := some .request } } }

/-- It is refused after 31 seconds, and was not after 30. -/
theorem stale_refused_no_ts : Job.Refuses (unstamped 31) ∧ checkTimeStamp (unstamped 30) = 0 :=
  have htimed : (unstamped 31).Timed := ⟨by decide, by decide⟩
  ⟨((stale_refused_iff htimed (by decide)).mpr (by decide)).2, by decide⟩

/-- **The oldest time stamp passes for a fresh one**: in 2023 the user 7 is
authenticated by a pack that claims to be from 1946. -/
theorem stale_accepted :
    ∃ pack : IMessagePack, pack.Timed ∧ pack.Stale ∧ pack.packTs = -2 ^ 31 ∧
      checkTimeStamp pack = 0 ∧
      ∀ C now, ((ImMessageAuthProcessor.processAuthPack C now pack).map IMessage.uid) = some 7 := by
  refine ⟨⟨{ createIMessageOfLen 0 with state := AUTH_STATE, genTime := 1700000000 },
    { type := some .auth
      ts := some (-2 ^ 31)
      content := some { authReq := some ⟨some 7, some [116]⟩ } }⟩,
    ⟨by decide, by decide⟩, by decide, by decide, by decide, ?_⟩
  intro C now
  rfl

/-! ### What the processors are given -/

/-- A word that is not zero has been read inside the buffer. -/
theorem length_of_hostInt {p : List UInt8} {i : ℕ} (h : hostInt p i ≠ 0) :
    4 * i + 4 ≤ p.length := by
  unfold hostInt at h
  split at h
  · rename_i a b c d l hdrop
    have hlen := congrArg List.length hdrop
    rw [List.length_drop] at hlen
    simp only [List.length_cons] at hlen
    omega
  · exact absurd rfl h

section Given

variable {ω : Type} {destroy : ℕ → ω → ω}

/-- Every message passed to the processor was made from a frame in the trace
that has the magic word. -/
def Traced (m : Ctx Addr (AppWorld ω)) : Prop :=
  ∀ x ∈ m.app.processed, ∃ b size rpos bytes, Act.frame b size rpos bytes ∈ m.trace ∧
    0 ≤ size ∧ (8 ≤ size → hostInt bytes 1 = magic) ∧ ∃ st io conn now,
      x.2 = { createIMessage bytes size with
        state := st, io := io, conn := conn, type := APP, genTime := now }

theorem Traced.append {m m' : Ctx Addr (AppWorld ω)} {l : List Act} (h : Traced m)
    (ht : m'.trace = m.trace ++ l) (hp : m'.app.processed = m.app.processed) : Traced m' := by
  intro x hx
  rw [hp] at hx
  obtain ⟨b, size, rpos, bytes, hmem, hrest⟩ := h x hx
  exact ⟨b, size, rpos, bytes, ht ▸ List.mem_append_left l hmem, hrest⟩

theorem Traced.call {m : Ctx Addr (AppWorld ω)} (h : Traced m) (b size : ℤ) :
    Traced (callFrame (appHooks destroy) b size m).2 := by
  have ht := callFrame_trace (appHooks destroy) b size m
  rcases callFrame_app (appHooks destroy) b size m with happ | ⟨r, happ⟩
  · exact h.append ht (by rw [happ])
  · rcases AppWorld.whenReceivedFrame_cases happ with ⟨-, hw | hw⟩ | ⟨-, hmark, h0, hin, hw⟩
    · exact h.append ht (by rw [hw])
    · exact h.append ht (by rw [hw]; rfl)
    · intro x hx
      rw [hw] at hx
      rcases List.mem_append.mp hx with hx | hx
      · obtain ⟨b', size', rpos, bytes, hmem, hrest⟩ := h x hx
        exact ⟨b', size', rpos, bytes, ht ▸ List.mem_append_left _ hmem, hrest⟩
      · refine ⟨b, size, m.conn.rpos, slice m.conn.rbuf b size, ?_, h0, ?_, ?_⟩
        · rw [ht]
          exact List.mem_append_right _ (List.mem_singleton.mpr rfl)
        · intro h8
          have hlen := length_of_hostInt (show hostInt _ 1 ≠ 0 by rw [hmark]; decide)
          rw [slice, hostInt_take (by omega) hlen]
          exact hmark
        · refine ⟨m.app.conn.state, m.app.conn.io, m.app.conn.id, m.app.clock (m.app.tick + 1), ?_⟩
          rw [List.mem_singleton.mp hx]
          have hb : createIMessage (m.conn.rbuf.drop b.toNat) size =
              createIMessage (slice m.conn.rbuf b size) size := by
            rw [createIMessage, createIMessage, slice, List.take_take, min_self]
          show { createIMessage (m.conn.rbuf.drop b.toNat) size with
            state := m.app.conn.state, io := m.app.conn.io, conn := m.app.conn.id, type := APP,
            genTime := m.app.clock (m.app.tick + 1) } = _
          rw [hb]

theorem tracedRule : ReadRule (appHooks destroy) fun m m' => Traced m → Traced m' where
  refl _ h := h
  trans h₁ h₂ h := h₂ (h₁ h)
  recv hpost h := by
    obtain ⟨k, hk⟩ := hpost.trace
    exact h.append hk (by rw [hpost.app])
  frame b size _ h := h.call b size
  buffer _ _ _ h := h
  script _ _ h := h
  halt _ h := h
  teardown reset m h := by
    refine h.append (l := [.teardown reset]) rfl ?_
    show (AppWorld.whenClosed _).processed = _
    rw [AppWorld.whenClosed_processed]
    rcases m.conn.currentPush with - | p <;> rfl

/-- **The messages that `whenReceivedFrame` passes on are framed**, when they
have room for the magic word: in any read events on any stream. -/
theorem processed_framed (fuel : ℕ) {c : IoConnection Addr} (hc : c.Sized) (fd io : ℤ) (id : ℕ)
    {w : AppWorld ω} (hw : w.processed = []) (alloc : Bool) (stream : List UInt8)
    (scripts : List (List RecvChoice)) :
    ∀ x ∈ (readEvents (appHooks destroy) fuel scripts
      (accepted (c.initializeConn fd io id) w alloc stream)).app.processed,
      0 ≤ x.2.dataLen → x.2.Framed := by
  have hrun : ∀ {m : Ctx Addr (AppWorld ω)}, Traced m →
      Traced (readEvents (appHooks destroy) fuel scripts m) := by
    induction scripts with
    | nil => exact fun hm => hm
    | cons cs scripts ih => exact fun hm => ih (tracedRule.readHandler fuel cs _ hm)
  have hstart : Traced (accepted (c.initializeConn fd io id) w alloc stream) := by
    intro x hx
    rw [show (accepted (c.initializeConn fd io id) w alloc stream).app.processed = [] from hw] at hx
    cases hx
  intro x hx h0
  obtain ⟨b, size, rpos, bytes, hmem, hpos, hmark, st, io', conn, now, hmsg⟩ := hrun hstart x hx
  have h8 : 8 ≤ size := by
    by_contra hshort
    have hdata : x.2.dataLen = frameDataSize size := by
      rw [hmsg]
      rfl
    rw [hdata, frameDataSize_eq (by omega) (by omega)] at h0
    omega
  obtain ⟨hlen, hword, hmax⟩ :=
    readEvents_announced _ fuel hc fd io id w alloc stream scripts _ hmem h8
  have hf := IMessage.framed_ofFrame h8 hlen hword hmax (hmark h8)
  rw [hmsg]
  exact ⟨hf.room, hf.dataLen, hf.frameLen, hf.fits, hf.word, hf.mark⟩

end Given

/-! ### One id for the ack and the forwarded message -/

/-- `ms::MessageRequest`. -/
structure MessageRequest where
  mshId : List UInt8
  msgId : List UInt8
  msg : List UInt8

/-- The request that `MessageBroker::dispatch(msg)` sends; `brokerInstance` is
`g_broker_instance`. -/
def MessageBroker.request (brokerInstance : List UInt8) (msg : IMessage) : MessageRequest where
  mshId := brokerInstance
  msgId := msg.id.take 8
  msg := msg.data

/-- The pack with the id `mid` in its message. -/
def ImPack.withMsgId (data : ImPack) (mid : List UInt8) : ImPack :=
  { data with
    content := some { data.content.getD {} with
      msg := some { (data.content.getD {}).msg.getD {} with msgId := some mid } } }

/-- The message in the pack. -/
def IMessagePack.imMsg (pack : IMessagePack) : ImMsg := pack.content.msg.getD {}

/-- The logic type of the pack is `IM_REQUEST`. -/
def IMessagePack.IsRequest (pack : IMessagePack) : Prop :=
  pack.imMsg.type.getD .request = .request

instance (pack : IMessagePack) : Decidable pack.IsRequest :=
  inferInstanceAs (Decidable (pack.imMsg.type.getD .request = .request))

/-- The pack as it is forwarded. -/
def IMessagePack.forwarded (pack : IMessagePack) (mid : List UInt8) : ImPack :=
  if pack.IsRequest then pack.data.withMsgId mid else pack.data

/-- The ack of a message with the given sequence number. -/
def ackPack (now : ℤ) (mid : List UInt8) (seq : ℤ) : ImPack :=
  { type := some .msgAck
    ts := some (replyTs now)
    content := some { msgAck := some ⟨some mid, some seq⟩ } }

/-- The size of the serialised pack, with the two words before it, is an
`int`. -/
def Codec.Fits (C : Codec) (data : ImPack) : Prop := (C.serialize data).length + 8 < 2 ^ 31

instance (C : Codec) (data : ImPack) : Decidable (C.Fits data) :=
  inferInstanceAs (Decidable ((C.serialize data).length + 8 < 2 ^ 31))

/-- A message that holds a serialised pack. -/
structure Carried (C : Codec) (data : ImPack) (m : IMessage) : Prop where
  framed : m.Framed
  bytes : m.data = C.serialize data

section Carried

variable {C : Codec} {data : ImPack} {m : IMessage}

theorem Codec.Fits.int (hfit : C.Fits data) : ((C.serialize data).length : ℤ) + 8 < 2 ^ 31 := by
  have h : (C.serialize data).length + 8 < 2 ^ 31 := hfit
  omega

/-- Where a message goes has nothing to do with its frame. -/
theorem IMessage.Framed.addressed (hm : m.Framed) (uid io : ℤ) (conn : ℕ) :
    { m with uid := uid, io := io, conn := conn, needCollect := false }.Framed :=
  ⟨hm.room, hm.dataLen, hm.frameLen, hm.fits, hm.word, hm.mark⟩

/-- `SerializeToArray` into a message of the right length. -/
theorem carried_write (hm : m.Framed) (hlen : m.dataLen = (C.serialize data).length) :
    Carried C data (m.writeData (C.serialize data)) := by
  refine ⟨hm.write hlen.symm, data_writeData ?_ hlen⟩
  have h₁ := hm.room
  have h₂ := hm.fits
  have h₃ := hm.frameLen
  have h₄ := hm.dataLen
  omega

/-- `fixIMessage` first, whatever the size of the buffer. -/
theorem carried_fix (hm : m.Framed) (hfit : C.Fits data) :
    Carried C data ((fixIMessage m (C.serialize data).length).writeData (C.serialize data)) :=
  carried_write (hm.fix (Int.natCast_nonneg _) hfit.int) (fixIMessage_room m _).2

/-- What the message holds can be parsed. -/
theorem Carried.parse (h : Carried C data m) (hC : C.Inverts data) :
    C.parse m.data = some data := by
  rw [h.bytes]
  exact hC

end Carried

/-- What the two messages of an accepted IM_MSG pack are.  The ack goes back
on the connection of the sender, with its sequence number and the id; the
message for the broker has the same id beside its payload, and the payload
is the pack to forward. -/
structure SameId (C : Codec) (now : ℤ) (mid : List UInt8) (pack : IMessagePack)
    (ack fwd : IMessage) : Prop where
  io : ack.io = pack.msg.io
  conn : ack.conn = pack.msg.conn
  answer : C.parse ack.data = some (ackPack now mid (pack.imMsg.seq.getD 0))
  id : fwd.id = mid
  payload : C.parse fwd.data = some (pack.forwarded mid)
  request : ∀ inst, MessageBroker.request inst fwd = ⟨inst, mid, fwd.data⟩
  ackFramed : ack.Framed
  fwdFramed : fwd.Framed

/-- What `createMsgAckPack` writes. -/
theorem createMsgAckPack_carried (C : Codec) (now uid : ℤ) {mid : List UInt8} {pack : IMessagePack}
    (hm : pack.msg.Framed) (hfwd : C.Fits (pack.data.withMsgId mid))
    (hack : C.Fits (ackPack now mid (pack.imMsg.seq.getD 0))) :
    (pack.IsRequest →
      Carried C (pack.data.withMsgId mid) (createMsgAckPack C now pack uid mid).1) ∧
    (¬ pack.IsRequest → (createMsgAckPack C now pack uid mid).1 = pack.msg) ∧
    Carried C (ackPack now mid (pack.imMsg.seq.getD 0))
      (createMsgAckPack C now pack uid mid).2 := by
  refine ⟨?_, ?_, ?_⟩
  · intro hreq
    have htype : (pack.content.msg.getD {}).type.getD .request = .request := hreq
    rw [createMsgAckPack]
    simp only [htype, if_true]
    exact carried_fix hm hfwd
  · intro hreq
    have htype : ¬ (pack.content.msg.getD {}).type.getD .request = .request := hreq
    rw [createMsgAckPack]
    simp only [htype, if_false]
    rfl
  · have hf := IMessage.framed_ofLen (Int.natCast_nonneg _) hack.int
    rw [createMsgAckPack]
    exact carried_write (hf.addressed _ _ _) rfl

/-- **Ack and forwarded message carry the same id.**  An accepted IM_MSG pack
is answered on the connection it came from, with the client's sequence number
and the id that was generated for it; the broker is given the message of the
pack with this id, and with the client's pack as its payload, in which the id
has been entered if it is a request. -/
theorem processMsgPack_same_id (C : Codec) (now : ℤ) (mid : List UInt8) (ret collects : Bool)
    {v : Addr} {H : Heap} {pack : IMessagePack} (hparse : parse C (H.msg v) = some pack)
    (hv : v < H.brk) (hm : (H.msg v).Framed) (hstate : (H.msg v).state = MSG_STATE)
    (hts : checkTimeStamp pack ≠ -1) (huid : getMsgPackUser pack ≠ -1)
    (htargets : 1 ≤ getMsgPackTargetUserCount pack) (hmid : mid.length = 8)
    (hfwd : C.Inverts (pack.data.withMsgId mid) ∧ C.Fits (pack.data.withMsgId mid))
    (hack : C.Inverts (ackPack now mid (pack.imMsg.seq.getD 0)) ∧
      C.Fits (ackPack now mid (pack.imMsg.seq.getD 0))) :
    ∃ r last, ImMessageProcessor.processMsgPack C now mid ret collects pack v H = some r ∧
      r.effects = [.routeBack H.brk, .dispatch v, last] ∧
      SameId C now mid pack (r.heap.msg H.brk) (r.heap.msg v) := by
  obtain ⟨hmsg, hdata⟩ := parse_some hparse
  have haccepted : ImMessageProcessor.refused pack = false := by
    simp [ImMessageProcessor.refused, hts, hmsg, hstate]
  have hne : H.brk ≠ v := hv.ne'
  obtain ⟨hreq, hother, hackCarried⟩ :=
    createMsgAckPack_carried C now (getMsgPackUser pack) (hmsg ▸ hm) hfwd.2 hack.2
  obtain ⟨hroute, hconn, -, -⟩ :=
    createMsgAckPack_sameRoute C now pack (getMsgPackUser pack) mid
  have hrun : ImMessageProcessor.processMsgPack C now mid ret collects pack v H =
      some ⟨{ H.setMsg H.brk (createMsgAckPack C now pack (getMsgPackUser pack) mid).2 with
          next := Function.update H.next H.brk none, brk := H.brk + 1 }.setMsg v
            { (createMsgAckPack C now pack (getMsgPackUser pack) mid).1 with
              uid := getMsgPackUser pack, id := mid },
        [.routeBack H.brk, .dispatch v, if !ret && collects then .collect v else .release v]⟩ := by
    rw [ImMessageProcessor.processMsgPack, haccepted, if_neg Bool.false_ne_true, if_neg huid,
      if_neg (by omega)]
  refine ⟨_, _, hrun, rfl, ?_⟩
  -- the two messages are at different addresses
  have hackMsg : ∀ (K : Heap) (m' : IMessage), (K.setMsg v m').msg H.brk = K.msg H.brk :=
    fun K m' => Function.update_of_ne hne _ _
  rw [Heap.setMsg_self, hackMsg]
  show SameId C now mid pack ((H.setMsg H.brk _).msg H.brk) _
  rw [Heap.setMsg_self]
  refine ⟨?_, hconn, hackCarried.parse hack.1, rfl, ?_, ?_, hackCarried.framed, ?_⟩
  · exact hroute.io
  · unfold IMessagePack.forwarded
    split
    · rename_i h
      exact (hreq h).parse hfwd.1
    · rename_i h
      rw [hother h, hmsg]
      exact hdata
  · intro inst
    show MessageRequest.mk inst (mid.take 8) _ = _
    rw [List.take_of_length_le hmid.le]
  · by_cases h : pack.IsRequest
    · have hf := (hreq h).framed
      exact ⟨hf.room, hf.dataLen, hf.frameLen, hf.fits, hf.word, hf.mark⟩
    · rw [hother h, hmsg]
      exact ⟨hm.room, hm.dataLen, hm.frameLen, hm.fits, hm.word, hm.mark⟩

/-- A request of the user 7 to the user 9, with the sequence number 5. -/
def clientPack : ImPack :=
  { type := some .msg
    ts := some 100
    content := some
      { msg := some { uid := some 7, seq := some 5, targetUid := [9], type := some .request } } }

/-- The protobuf encoding of this request, of the request with the id 1 to 8
in it, and of its ack. -/
def clientCodec : Codec where
  parse bytes :=
    if bytes = [8, 3, 18, 10, 26, 8, 8, 7, 16, 5, 24, 9, 32, 1, 24, 100] then some clientPack
    else if bytes = [8, 3, 18, 20, 26, 18, 8, 7, 16, 5, 24, 9, 32, 1, 42, 8, 1, 2, 3, 4, 5, 6, 7, 8,
        24, 100] then some (clientPack.withMsgId [1, 2, 3, 4, 5, 6, 7, 8])
    else if bytes = [8, 4, 18, 14, 34, 12, 10, 8, 1, 2, 3, 4, 5, 6, 7, 8, 16, 5, 24, 100] then
      some (ackPack (TIMESTAMP_20150101000000 + 100) [1, 2, 3, 4, 5, 6, 7, 8] 5)
    else none
  serialize data :=
    if data = clientPack then [8, 3, 18, 10, 26, 8, 8, 7, 16, 5, 24, 9, 32, 1, 24, 100]
    else if data = clientPack.withMsgId [1, 2, 3, 4, 5, 6, 7, 8] then
      [8, 3, 18, 20, 26, 18, 8, 7, 16, 5, 24, 9, 32, 1, 42, 8, 1, 2, 3, 4, 5, 6, 7, 8, 24, 100]
    else if data = ackPack (TIMESTAMP_20150101000000 + 100) [1, 2, 3, 4, 5, 6, 7, 8] 5 then
      [8, 4, 18, 14, 34, 12, 10, 8, 1, 2, 3, 4, 5, 6, 7, 8, 16, 5, 24, 100]
    else []

/-- The message with this request, as `whenReceivedFrame` makes it. -/
def clientMsg : IMessage :=
  { createIMessage [0, 0, 0, 20, 0x6D, 0x69, 0x6D, 0x69,
      8, 3, 18, 10, 26, 8, 8, 7, 16, 5, 24, 9, 32, 1, 24, 100] 24 with
    state := MSG_STATE
    io := 3
    conn := 11
    type := APP
    genTime := TIMESTAMP_20150101000000 + 100 }

/-- The id makes the request ten bytes longer, which still fits its buffer. -/
theorem processMsgPack_same_id_request :
    ∃ r last, ImMessageProcessor.processMsgPack clientCodec (TIMESTAMP_20150101000000 + 100)
        [1, 2, 3, 4, 5, 6, 7, 8] true false ⟨clientMsg, clientPack⟩ 0
        (Heap.empty.newMsg clientMsg) = some r ∧
      r.effects = [.routeBack 1, .dispatch 0, last] ∧
      SameId clientCodec (TIMESTAMP_20150101000000 + 100) [1, 2, 3, 4, 5, 6, 7, 8]
        ⟨clientMsg, clientPack⟩ (r.heap.msg 1) (r.heap.msg 0) :=
  processMsgPack_same_id clientCodec (TIMESTAMP_20150101000000 + 100) [1, 2, 3, 4, 5, 6, 7, 8]
    true false (v := 0) (H := Heap.empty.newMsg clientMsg)
    (show parse clientCodec clientMsg = some ⟨clientMsg, clientPack⟩ from rfl) (by decide)
    ⟨by decide, by decide, by decide, by decide, by decide, by decide⟩ rfl
    (by decide) (by decide) (by decide) rfl ⟨by decide, by decide⟩ ⟨by decide, by decide⟩

end Xkim
