/-
MsgHandler/Parser.lean

The packs inside the messages: the types of `proto/im.proto` and
`im::ImMessageParser`.

What protobuf does with the bytes is a parameter, a `Codec`: `parse` is
`ParseFromArray` and `serialize` is `SerializeToArray`, whose length is
`ByteSize`.  A field of a pack is an `Option`: `has_x()` is `isSome`, and
`x()` on a missing field gives the default value of its type.
-/
import MsgHandler.Message

namespace Xkim

/-! ### `proto/im.proto` -/

/-- `ImPackType`. -/
inductive ImPackType
  | unknow
  | touch
  | touchAck
  | msg
  | msgAck
  | auth
  | authResponse
  deriving DecidableEq, Repr

/-- `ImMsgLogicType`. -/
inductive ImMsgLogicType
  | request
  | response
  deriving DecidableEq, Repr

/-- `ImTouch`, and `ImTouchResponse`, which has the same field. -/
structure ImTouch where
  uid : Option ℤ := none
  deriving DecidableEq, Repr

/-- `ImMsg`. -/
structure ImMsg where
  uid : Option ℤ := none
  seq : Option ℤ := none
  targetUid : List ℤ := []
  type : Option ImMsgLogicType := none
  msgId : Option (List UInt8) := none
  /-- The four bytes of a `float`. -/
  points : Option (List UInt8) := none
  timeout : Option ℤ := none
  textContent : Option (List UInt8) := none
  picId : Option (List UInt8) := none
  vidId : Option (List UInt8) := none
  locWord : Option (List UInt8) := none
  deriving DecidableEq, Repr

/-- `ImMsgAck`. -/
structure ImMsgAck where
  msgId : Option (List UInt8) := none
  seq : Option ℤ := none
  deriving DecidableEq, Repr

/-- `ImAuthRequest`. -/
structure ImAuthRequest where
  uid : Option ℤ := none
  token : Option (List UInt8) := none
  deriving DecidableEq, Repr

/-- `ImAuthResponse`. -/
structure ImAuthResponse where
  token : Option (List UInt8) := none
  authSuccess : Option Bool := none
  deriving DecidableEq, Repr

/-- `ImPackContent`. -/
structure ImPackContent where
  touch : Option ImTouch := none
  touchRep : Option ImTouch := none
  msg : Option ImMsg := none
  msgAck : Option ImMsgAck := none
  authReq : Option ImAuthRequest := none
  authRep : Option ImAuthResponse := none
  deriving DecidableEq, Repr

/-- `ImPack`. -/
structure ImPack where
  type : Option ImPackType := none
  content : Option ImPackContent := none
  ts : Option ℤ := none
  deriving DecidableEq, Repr

/-- The protobuf runtime. -/
structure Codec where
  /-- `ParseFromArray` -/
  parse : List UInt8 → Option ImPack
  /-- `SerializeToArray` -/
  serialize : ImPack → List UInt8

/-- What a runtime does on a few packs, of which the encodings are given. -/
def Codec.ofTable (table : List (List UInt8 × ImPack)) : Codec where
  parse bytes := table.lookup bytes
  serialize data := ((table.find? fun e => e.2 = data).map Prod.fst).getD []

/-! ### `im::ImMessageParser` -/

/-- `TIMESTAMP_20150101000000`. -/
def TIMESTAMP_20150101000000 : ℤ := 1420041600

/-- `TIMESTAMP_GAP`. -/
def TIMESTAMP_GAP : ℤ := 30

/-- `MESSAGE_TYPE` values of `createMsgAckPack`. -/
def APP_REQUEST : ℕ := 1

/-- See `APP_REQUEST`. -/
def APP_REPLY : ℕ := 2

/-- `IMessagePackType`. -/
inductive IMessagePackType
  | unknow
  | touch
  | msg
  | msgAck
  | auth
  deriving DecidableEq, Repr

/-- `IMessagePack`: a message with the pack parsed from it. -/
structure IMessagePack where
  msg : IMessage
  data : ImPack

/-- `_data.content()`. -/
def IMessagePack.content (pack : IMessagePack) : ImPackContent := pack.data.content.getD {}

namespace ImMessageParser

/-- `parse(msg)`: the bytes are a pack with a type and a content. -/
def parse (C : Codec) (msg : IMessage) : Option IMessagePack :=
  match C.parse msg.data with
  | some data =>
    if data.type.isSome && data.content.isSome then some ⟨msg, data⟩ else none
  | none => none

/-- `getMessagePackType(pack)`. -/
def getMessagePackType (pack : IMessagePack) : IMessagePackType :=
  match pack.data.type with
  | some .unknow => .unknow
  | some .touch => .touch
  | some .msg => .msg
  | some .msgAck => .msgAck
  | some .auth => .auth
  | _ => .unknow

/-- `checkTimeStamp(pack)`, in `int` arithmetic. -/
def checkTimeStamp (pack : IMessagePack) : ℤ :=
  let packTs := pack.data.ts.getD 0
  let nowTs := toInt32 (pack.msg.genTime - TIMESTAMP_20150101000000)
  if toInt32 (nowTs - packTs) > TIMESTAMP_GAP then -1 else 0

/-- The `_ts` of a reply built at time `now`. -/
def replyTs (now : ℤ) : ℤ := toInt32 (now - TIMESTAMP_20150101000000)

/-- A reply takes the place of the request in its message: `fixIMessage`,
`_uid`, `_need_collect` and `SerializeToArray`. -/
def reply (C : Codec) (uid : ℤ) (data : ImPack) (msg : IMessage) : IMessage :=
  let bytes := C.serialize data
  { fixIMessage msg bytes.length with uid := uid, needCollect := false }.writeData bytes

/-- `getTouchPackUid(pack)`. -/
def getTouchPackUid (pack : IMessagePack) : ℤ := (pack.content.touch.bind ImTouch.uid).getD (-1)

/-- `createTouchAckPack(uid, pack)` at time `now`. -/
def createTouchAckPack (C : Codec) (now uid : ℤ) (pack : IMessagePack) : IMessage :=
  reply C uid
    { type := some .touchAck
      ts := some (replyTs now)
      content := some { touchRep := some ⟨some uid⟩ } } pack.msg

/-- `getAuthPackUid(pack)`. -/
def getAuthPackUid (pack : IMessagePack) : ℤ :=
  (pack.content.authReq.bind ImAuthRequest.uid).getD (-1)

/-- `getAuthPackToken(pack)`. -/
def getAuthPackToken (pack : IMessagePack) : List UInt8 :=
  (pack.content.authReq.bind ImAuthRequest.token).getD []

/-- `createAuthPack(uid, pack)` at time `now`. -/
def createAuthPack (C : Codec) (now uid : ℤ) (pack : IMessagePack) : IMessage :=
  reply C uid
    { type := some .authResponse
      ts := some (replyTs now)
      content := some { authRep := some ⟨some (getAuthPackToken pack), some true⟩ } } pack.msg

/-- `getMsgPackUser(pack)`. -/
def getMsgPackUser (pack : IMessagePack) : ℤ := (pack.content.msg.bind ImMsg.uid).getD (-1)

/-- `getMsgPackTargetUserCount(pack)`. -/
def getMsgPackTargetUserCount (pack : IMessagePack) : ℕ :=
  (pack.content.msg.getD {}).targetUid.length

/-- `createMsgAckPack(pack, uid, msg_id, len)` at time `now`: the message of
the pack, in which a request now carries the id, and the ack. -/
def createMsgAckPack (C : Codec) (now : ℤ) (pack : IMessagePack) (uid : ℤ) (msgId : List UInt8) :
    IMessage × IMessage :=
  let msgData := pack.content.msg.getD {}
  let seq := msgData.seq.getD 0
  let type := if msgData.type.getD .request = .request then APP_REQUEST else APP_REPLY
  let inMsg :=
    if type = APP_REQUEST then
      let incoming := { pack.data with
        content := some { pack.content with msg := some { msgData with msgId := some msgId } } }
      let bytes := C.serialize incoming
      (fixIMessage pack.msg bytes.length).writeData bytes
    else pack.msg
  let bytes := C.serialize
    { type := some .msgAck
      ts := some (replyTs now)
      content := some { msgAck := some ⟨some msgId, some seq⟩ } }
  let ack := { createIMessageOfLen bytes.length with
    uid := uid
    io := inMsg.io
    conn := inMsg.conn
    needCollect := false }
  (inMsg, ack.writeData bytes)

/-! #### What a reply keeps of the request -/

/-- The fields by which a message finds its way back. -/
structure SameRoute (m m' : IMessage) : Prop where
  io : m'.io = m.io
  conn : m'.conn = m.conn
  state : m'.state = m.state
  switchState : m'.switchState = m.switchState

theorem fixIMessage_sameRoute (m : IMessage) (len : ℤ) : SameRoute m (fixIMessage m len) := by
  unfold fixIMessage
  dsimp only
  split <;> exact ⟨rfl, rfl, rfl, rfl⟩

theorem reply_sameRoute (C : Codec) (uid : ℤ) (data : ImPack) (m : IMessage) :
    SameRoute m (reply C uid data m) := by
  obtain ⟨hio, hconn, hstate, hswitch⟩ := fixIMessage_sameRoute m (C.serialize data).length
  exact ⟨hio, hconn, hstate, hswitch⟩

theorem createMsgAckPack_sameRoute (C : Codec) (now : ℤ) (pack : IMessagePack) (uid : ℤ)
    (msgId : List UInt8) :
    SameRoute pack.msg (createMsgAckPack C now pack uid msgId).1 ∧
      (createMsgAckPack C now pack uid msgId).2.conn = pack.msg.conn ∧
      (createMsgAckPack C now pack uid msgId).2.state = INIT_STATE ∧
      (createMsgAckPack C now pack uid msgId).2.switchState = false := by
  unfold createMsgAckPack
  dsimp only
  split
  · have hfix := fixIMessage_sameRoute pack.msg
    refine ⟨?_, ?_, rfl, rfl⟩
    · obtain ⟨hio, hconn, hstate, hswitch⟩ := hfix _
      exact ⟨hio, hconn, hstate, hswitch⟩
    · exact (hfix _).conn
  · exact ⟨⟨rfl, rfl, rfl, rfl⟩, rfl, rfl, rfl⟩

/-- What `parse` accepts. -/
theorem parse_some {C : Codec} {msg : IMessage} {pack : IMessagePack}
    (h : parse C msg = some pack) : pack.msg = msg ∧ C.parse msg.data = some pack.data := by
  unfold parse at h
  split at h
  · rename_i data hdata
    split at h
    · obtain rfl := Option.some.inj h
      exact ⟨rfl, hdata⟩
    · cases h
  · cases h

end ImMessageParser

end Xkim
