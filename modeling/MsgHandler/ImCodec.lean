/-
MsgHandler/ImCodec.lean

What the server does with packs, on the wire.

The rest of the development leaves open what protobuf makes of a pack (`Codec`).
Here the generated classes are in it, with any lawful libprotobuf below them
(`codec`), and the bytes that the server sends are followed to the parser that
receives them: the answers to a client, and a message on its way from one client
through two servers to others.

A server parses a pack, changes one or two of its fields and serialises it
again.  The classes keep the fields that they do not know, so a server passes
on what a newer client has put in (`relay_delivers`).
-/
import MsgHandler.ImProto
import MsgHandler.PackHandling

namespace Xkim

open Wire (Message)

namespace Proto

variable {U : Type} {L : Libprotobuf U}

/-! ### The fields of a pack -/

/-- The fields of the content that the class has. -/
def ImPackContent.known (c : ImPackContent U) : Xkim.ImPackContent where
  touch := c.touch.map (·.fields)
  touchRep := c.touchRep.map (·.fields)
  msg := c.msg.map (·.fields)
  msgAck := c.msgAck.map (·.fields)
  authReq := c.authReq.map (·.fields)
  authRep := c.authRep.map (·.fields)

/-- The fields of the pack that the class has. -/
def known (p : Message U (ImPack U)) : Xkim.ImPack where
  type := p.fields.type
  content := p.fields.content.map (·.fields.known)
  ts := p.fields.ts

/-- A content without unknown fields. -/
def ImPackContent.ofKnown (c : Xkim.ImPackContent) : ImPackContent U where
  touch := c.touch.map (⟨·, []⟩)
  touchRep := c.touchRep.map (⟨·, []⟩)
  msg := c.msg.map (⟨·, []⟩)
  msgAck := c.msgAck.map (⟨·, []⟩)
  authReq := c.authReq.map (⟨·, []⟩)
  authRep := c.authRep.map (⟨·, []⟩)

/-- A pack without unknown fields, as a server builds it. -/
def ofKnown (data : Xkim.ImPack) : Message U (ImPack U) where
  fields :=
    { type := data.type
      content := data.content.map fun c => ⟨.ofKnown c, []⟩
      ts := data.ts }

@[simp]
theorem ImPackContent.known_ofKnown (c : Xkim.ImPackContent) : (ofKnown (U := U) c).known = c := by
  obtain ⟨_ | _, _ | _, _ | _, _ | _, _ | _, _ | _⟩ := c <;> rfl

@[simp]
theorem known_ofKnown (data : Xkim.ImPack) : known (ofKnown (U := U) data) = data := by
  obtain ⟨type, _ | c, ts⟩ := data
  · rfl
  · show Xkim.ImPack.mk type (some (ImPackContent.ofKnown (U := U) c).known) ts = _
    rw [ImPackContent.known_ofKnown]

/-- libprotobuf and `proto/im.pb.cc`. -/
def codec (L : Libprotobuf U) : Codec where
  parse data := (L.parseFromArray data).map known
  serialize data := L.serializeToArray (ofKnown data)

/-- A pack that the server builds arrives. -/
theorem codec_inverts (hL : L.Lawful) {data : Xkim.ImPack} (hwf : WellFormed L (ofKnown data))
    (hinit : isInitialized L (ofKnown data) = true)
    (hlen : (L.serializeToArray (ofKnown data)).length < 2 ^ 31) : (codec L).Inverts data := by
  show (L.parseFromArray (L.serializeToArray (ofKnown data))).map known = some data
  rw [hL.parse_serializeToArray hwf hlen, if_pos hinit, Option.map_some, known_ofKnown]

end Proto

/-! ### Required fields -/

/-- Every message in the content has its required fields. -/
structure ImPackContent.Complete (c : ImPackContent) : Prop where
  touch : ∀ x, c.touch = some x → x.uid.isSome
  touchRep : ∀ x, c.touchRep = some x → x.uid.isSome
  msg : ∀ x, c.msg = some x → x.uid.isSome ∧ x.seq.isSome ∧ x.type.isSome
  msgAck : ∀ x, c.msgAck = some x → x.seq.isSome
  authReq : ∀ x, c.authReq = some x → x.uid.isSome ∧ x.token.isSome
  authRep : ∀ x, c.authRep = some x → x.token.isSome ∧ x.authSuccess.isSome

/-- The pack has a type and a complete content. -/
def ImPack.Complete (data : ImPack) : Prop :=
  data.type.isSome ∧ ∃ c, data.content = some c ∧ c.Complete

namespace Proto

open Wire.FieldSpec

variable {U : Type} {L : Libprotobuf U}

theorem ImPackContent.isInitialized_iff (R : Wire.Runtime U) (c : Message U (ImPackContent U)) :
    Wire.isInitialized (ImPackContent.fields R) c = true ↔ c.fields.known.Complete := by
  rw [Wire.isInitialized, ImPackContent.fields]
  simp only [List.all_cons, message_initialized, List.all_nil, Bool.not_false, Bool.true_or,
    Bool.true_and, Bool.and_true, Bool.and_eq_true, Option.all_eq_true, ImTouch.isInitialized,
    ImTouchResponse.isInitialized, ImMsg.isInitialized, ImMsgAck.isInitialized,
    ImAuthRequest.isInitialized, ImAuthResponse.isInitialized]
  constructor
  · rintro ⟨h₁, h₂, h₃, h₄, h₅, h₆⟩
    constructor
    all_goals
      intro x hx
      obtain ⟨y, hy, rfl⟩ := Option.map_eq_some_iff.mp hx
      grind
  · rintro ⟨h₁, h₂, h₃, h₄, h₅, h₆⟩
    have hmap {α : Type} {o : Option (Message U α)} {y : Message U α} (hy : o = some y) :
        o.map (·.fields) = some y.fields := Option.map_eq_some_iff.mpr ⟨y, hy, rfl⟩
    exact ⟨fun y hy => h₁ _ (hmap hy), fun y hy => h₂ _ (hmap hy), fun y hy => h₃ _ (hmap hy),
      fun y hy => h₄ _ (hmap hy), fun y hy => h₅ _ (hmap hy), fun y hy => h₆ _ (hmap hy)⟩

theorem isInitialized_iff (p : Message U (ImPack U)) :
    isInitialized L p = true ↔ (known p).Complete := by
  rw [isInitialized, Wire.isInitialized, ImPack.fields]
  simp only [List.all_cons, enum_initialized, message_initialized, optional_initialized,
    List.all_nil, Bool.not_false, Bool.not_true, Bool.false_or, Bool.true_or, Bool.and_true,
    Bool.and_eq_true]
  refine and_congr_right fun _ => ?_
  show _ ↔ ∃ c, p.fields.content.map (·.fields.known) = some c ∧ c.Complete
  cases p.fields.content with
  | none => simp
  | some c => simpa using ImPackContent.isInitialized_iff L.toRuntime c

/-! ### What the parser accepts -/

/-- The tests of `ImMessageParser::parse` on the result of `ParseFromArray`
never fail. -/
theorem parse_codec_iff (hL : L.Lawful) {msg : IMessage} {pack : IMessagePack} :
    ImMessageParser.parse (codec L) msg = some pack ↔
      pack.msg = msg ∧ ∃ p, L.parseFromArray msg.data = some p ∧ known p = pack.data := by
  have hread : (codec L).parse msg.data = (L.parseFromArray msg.data).map known := rfl
  unfold ImMessageParser.parse
  rw [hread]
  cases hp : L.parseFromArray msg.data with
  | none => simp
  | some p =>
    obtain ⟨htype, c, hc, -⟩ := (isInitialized_iff (L := L) p).mp (hL.parsed hp).2
    simp only [Option.map_some, htype, hc, Option.isSome_some, Bool.and_self, if_true,
      Option.some.injEq, exists_eq_left']
    constructor
    · rintro rfl
      exact ⟨rfl, rfl⟩
    · rintro ⟨rfl, hdata⟩
      rw [hdata]

/-- A number is missing only together with the message it is in. -/
theorem getD_eq_neg_one_iff {α : Type} {o : Option α} {uid : α → Option ℤ}
    (h : ∀ x, o = some x → (uid x).isSome) :
    (o.bind uid).getD (-1) = -1 ↔ ∀ x, o = some x → uid x = some (-1) := by
  cases o with
  | none => simp
  | some x =>
    obtain ⟨v, hv⟩ := Option.isSome_iff_exists.mp (h x rfl)
    simp [hv]

/-- **The tests of the parser are those of `ParseFromArray`.**  A message is
parsed if and only if `ParseFromArray` accepts its bytes: that the type and the
content are there is never in question.  Nor is it for the numbers that the
getters look for: they return -1 if the whole message is missing, or if the
client has sent -1. -/
theorem parser_tests_redundant (hL : L.Lawful) (msg : IMessage) :
    (ImMessageParser.parse (codec L) msg).isSome = (L.parseFromArray msg.data).isSome ∧
    ∀ pack, ImMessageParser.parse (codec L) msg = some pack →
      (ImMessageParser.getTouchPackUid pack = -1 ↔
        ∀ x, pack.content.touch = some x → x.uid = some (-1)) ∧
      (ImMessageParser.getAuthPackUid pack = -1 ↔
        ∀ x, pack.content.authReq = some x → x.uid = some (-1)) ∧
      (ImMessageParser.getMsgPackUser pack = -1 ↔
        ∀ x, pack.content.msg = some x → x.uid = some (-1)) ∧
      ∀ x, pack.content.msg = some x → x.seq.isSome ∧ x.type.isSome := by
  constructor
  · rw [Bool.eq_iff_iff, Option.isSome_iff_exists, Option.isSome_iff_exists]
    constructor
    · rintro ⟨pack, hpack⟩
      obtain ⟨-, p, hp, -⟩ := (parse_codec_iff hL).mp hpack
      exact ⟨p, hp⟩
    · rintro ⟨p, hp⟩
      exact ⟨⟨msg, known p⟩, (parse_codec_iff hL).mpr ⟨rfl, p, hp, rfl⟩⟩
  · intro pack hpack
    obtain ⟨-, p, hp, hdata⟩ := (parse_codec_iff hL).mp hpack
    obtain ⟨-, c, hc, hcomplete⟩ := (isInitialized_iff (L := L) p).mp (hL.parsed hp).2
    have hcontent : pack.content = c := by
      rw [IMessagePack.content, ← hdata, hc, Option.getD_some]
    unfold ImMessageParser.getTouchPackUid ImMessageParser.getAuthPackUid
      ImMessageParser.getMsgPackUser
    rw [hcontent]
    exact ⟨getD_eq_neg_one_iff hcomplete.touch,
      getD_eq_neg_one_iff fun x hx => (hcomplete.authReq x hx).1,
      getD_eq_neg_one_iff fun x hx => (hcomplete.msg x hx).1,
      fun x hx => (hcomplete.msg x hx).2⟩

theorem parse_clientMsg :
    ImMessageParser.parse (codec documented) clientMsg = some ⟨clientMsg, clientPack⟩ := by
  obtain ⟨p, hp, hknown⟩ := exists_parsed (L := documented) clientMsg.data
    (fun p => known p = clientPack) (by decide +kernel)
  exact (parse_codec_iff documented_lawful).mpr ⟨rfl, p, hp, of_decide_eq_true hknown⟩

/-- The sender of the request in `clientMsg` is read. -/
theorem parser_tests_client : ImMessageParser.getMsgPackUser ⟨clientMsg, clientPack⟩ ≠ -1 := by
  intro h
  have hmsg := (((parser_tests_redundant documented_lawful clientMsg).2 _
    parse_clientMsg).2.2.1.mp h) _ rfl
  exact absurd hmsg (by decide)

/-! ### Replies -/

/-- The reply to an IM_TOUCH pack. -/
def touchAckPack (now uid : ℤ) : Xkim.ImPack :=
  { type := some .touchAck
    ts := some (ImMessageParser.replyTs now)
    content := some { touchRep := some ⟨some uid⟩ } }

/-- The reply to an IM_AUTH pack. -/
def authPack (now : ℤ) (token : List UInt8) : Xkim.ImPack :=
  { type := some .authResponse
    ts := some (ImMessageParser.replyTs now)
    content := some { authRep := some ⟨some token, some true⟩ } }

/-- A pack that `SerializeToArray` and `ParseFromArray` carry over. -/
structure Encodable (L : Libprotobuf U) (data : Xkim.ImPack) : Prop where
  wellFormed : WellFormed L (ofKnown data)
  complete : data.Complete
  fits : (codec L).Fits data

theorem Encodable.inverts (hL : L.Lawful) {data : Xkim.ImPack} (h : Encodable L data) :
    (codec L).Inverts data := by
  refine codec_inverts hL h.wellFormed ((isInitialized_iff _).mpr ?_) ?_
  · rw [known_ofKnown]
    exact h.complete
  · have hfit : (L.serializeToArray (ofKnown data)).length + 8 < 2 ^ 31 := h.fits
    omega

theorem isInt32_replyTs (now : ℤ) : Wire.IsInt32 (ImMessageParser.replyTs now) := by
  unfold ImMessageParser.replyTs toInt32 Wire.IsInt32
  rw [Int.bmod_eq_emod]
  split <;> omega

/-- The values of the content, which has no unknown fields. -/
theorem wellFormed_ofKnown {data : Xkim.ImPack} {c : Xkim.ImPackContent}
    (hcontent : data.content = some c) (hts : ∀ v, data.ts = some v → Wire.IsInt32 v)
    (hvalid : ∀ f ∈ ImPackContent.fields L.toRuntime, f.Valid (.ofKnown c)) :
    WellFormed L (ofKnown data) := by
  refine ⟨?_, List.forall_mem_nil _⟩
  simp only [ImPack.fields, List.forall_mem_cons, enum_valid, message_valid, optional_valid,
    Wire.Runtime.int32_valid, true_and]
  refine ⟨?_, hts, List.forall_mem_nil _⟩
  intro y hy
  obtain ⟨c', hc', rfl⟩ := Option.map_eq_some_iff.mp hy
  obtain rfl := Option.some.inj (hcontent.symm.trans hc')
  exact ⟨hvalid, List.forall_mem_nil _⟩

/-- A field that may be missing. -/
theorem length_elim_le {V : Type} {o : Option V} {g : V → List UInt8} {k : ℕ}
    (h : ∀ v, (g v).length ≤ k) : (o.elim [] g).length ≤ k := by
  cases o with
  | none => exact Nat.zero_le k
  | some v => exact h v

/-- What is around the content is a few bytes. -/
theorem length_serializeToArray_le (hL : L.Lawful) {data : Xkim.ImPack}
    {c : Xkim.ImPackContent} (hcontent : data.content = some c) :
    (L.serializeToArray (ofKnown data)).length ≤
      (Wire.serialize L.toRuntime (ImPackContent.fields L.toRuntime) ⟨.ofKnown c, []⟩).length +
        60 := by
  obtain ⟨type, content, ts⟩ := data
  obtain rfl : content = some c := hcontent
  have htype : (type.elim [] fun e => L.writeEnum 1 e.toNumber).length ≤ 20 :=
    length_elim_le fun e => hL.runtime.enum_short 1 e.toNumber
  have hts : (ts.elim [] fun v => L.writeInt32 3 v).length ≤ 20 :=
    length_elim_le fun v => hL.runtime.int32_short 3 v
  have hcontent := hL.runtime.message_short 2
    (Wire.serialize L.toRuntime (ImPackContent.fields L.toRuntime) ⟨.ofKnown c, []⟩)
  rw [hL.serialize]
  nth_rewrite 1 [Wire.serialize]
  simp only [ImPack.fields, enum, message, Wire.FieldSpec.optional, ofKnown, List.flatMap_cons,
    List.flatMap_nil, Option.elim_some, Option.map_some, Wire.Runtime.int32,
    hL.runtime.unknown_nil, List.append_nil, List.length_append]
  omega

/-- A reply, whose content is one message without unknown fields. -/
theorem encodable_reply (hL : L.Lawful) {type : ImPackType} (now : ℤ) {c : Xkim.ImPackContent}
    {n : ℕ} {b : List UInt8}
    (hvalid : ∀ f ∈ ImPackContent.fields L.toRuntime, f.Valid (.ofKnown c)) (hc : c.Complete)
    (hone : Wire.serialize L.toRuntime (ImPackContent.fields L.toRuntime) ⟨.ofKnown c, []⟩ =
      L.writeMessage n b) (hb : b.length + 88 < 2 ^ 31) :
    Encodable L ⟨some type, some c, some (ImMessageParser.replyTs now)⟩ where
  wellFormed := by
    refine wellFormed_ofKnown rfl ?_ hvalid
    rintro v ⟨⟩
    exact isInt32_replyTs now
  complete := ⟨rfl, c, rfl, hc⟩
  fits := by
    have hlen : ((codec L).serialize
        ⟨some type, some c, some (ImMessageParser.replyTs now)⟩).length ≤ _ :=
      length_serializeToArray_le hL rfl
    have hmessage := hL.runtime.message_short n b
    rw [hone] at hlen
    unfold Codec.Fits
    omega

theorem touchAckPack_encodable (hL : L.Lawful) (now : ℤ) {uid : ℤ} (huid : Wire.IsInt32 uid) :
    Encodable L (touchAckPack now uid) := by
  refine encodable_reply hL (n := 2) (b := L.writeInt32 1 uid) now ?_ (by constructor <;> simp)
    ?_ ?_
  · have hrep : Wire.WellFormed L.toRuntime (ImTouchResponse.fields L.toRuntime) 2
        ⟨⟨some uid⟩, []⟩ :=
      ⟨by simp [ImTouchResponse.fields, huid], List.forall_mem_nil _⟩
    simp [ImPackContent.fields, ImPackContent.ofKnown, hrep]
  · simp [Wire.serialize, ImPackContent.fields, message, ImPackContent.ofKnown,
      ImTouchResponse.fields, Wire.FieldSpec.optional, Wire.Runtime.int32, hL.runtime.unknown_nil]
  · have hint := hL.runtime.int32_short 1 uid
    omega

theorem authPack_encodable (hL : L.Lawful) (now : ℤ) {token : List UInt8}
    (htoken : token.length + 148 < 2 ^ 31) : Encodable L (authPack now token) := by
  refine encodable_reply hL (n := 6) (b := L.writeBytes 1 token ++ L.writeBool 2 true) now ?_
    (by constructor <;> simp) ?_ ?_
  · have hrep : Wire.WellFormed L.toRuntime (ImAuthResponse.fields L.toRuntime) 2
        ⟨⟨some token, some true⟩, []⟩ :=
      ⟨by simp [ImAuthResponse.fields], List.forall_mem_nil _⟩
    simp [ImPackContent.fields, ImPackContent.ofKnown, hrep]
  · simp [Wire.serialize, ImPackContent.fields, message, ImPackContent.ofKnown,
      ImAuthResponse.fields, Wire.FieldSpec.optional, Wire.Runtime.bytes, Wire.Runtime.bool,
      hL.runtime.unknown_nil]
  · have hbytes := hL.runtime.bytes_short 1 token
    have hbool := hL.runtime.bool_short 2 true
    rw [List.length_append]
    omega

theorem ackPack_encodable (hL : L.Lawful) (now : ℤ) {mid : List UInt8} {seq : ℤ}
    (hseq : Wire.IsInt32 seq) (hmid : mid.length + 148 < 2 ^ 31) :
    Encodable L (ackPack now mid seq) := by
  refine encodable_reply hL (n := 4) (b := L.writeBytes 1 mid ++ L.writeInt32 2 seq) now ?_
    (by constructor <;> simp) ?_ ?_
  · have hrep : Wire.WellFormed L.toRuntime (ImMsgAck.fields L.toRuntime) 2
        ⟨⟨some mid, some seq⟩, []⟩ :=
      ⟨by simp [ImMsgAck.fields, hseq], List.forall_mem_nil _⟩
    simp [ImPackContent.fields, ImPackContent.ofKnown, hrep]
  · simp [Wire.serialize, ImPackContent.fields, message, ImPackContent.ofKnown, ImMsgAck.fields,
      Wire.FieldSpec.optional, Wire.Runtime.bytes, Wire.Runtime.int32, hL.runtime.unknown_nil]
  · have hbytes := hL.runtime.bytes_short 1 mid
    have hint := hL.runtime.int32_short 2 seq
    rw [List.length_append]
    omega

/-! #### What a reply takes from the request -/

/-- The content of a pack that was parsed. -/
theorem content_wellFormed {p : Message U (ImPack U)} (hp : WellFormed L p)
    {c : Message U (ImPackContent U)} (hc : p.fields.content = some c) :
    Wire.WellFormed L.toRuntime (ImPackContent.fields L.toRuntime) 1 c := by
  have hvalid := hp.valid
  simp only [ImPack.fields, List.forall_mem_cons, message_valid] at hvalid
  exact hvalid.2.1 c hc

/-- The messages in the content that the server reads. -/
theorem messages_wellFormed {c : Message U (ImPackContent U)}
    (hc : Wire.WellFormed L.toRuntime (ImPackContent.fields L.toRuntime) 1 c) :
    (∀ x, c.fields.touch = some x →
      Wire.WellFormed L.toRuntime (ImTouch.fields L.toRuntime) 2 x) ∧
    (∀ x, c.fields.msg = some x →
      Wire.WellFormed L.toRuntime (ImMsg.fields L.toRuntime) 2 x) := by
  have hvalid := hc.valid
  simp only [ImPackContent.fields, List.forall_mem_cons, message_valid] at hvalid
  exact ⟨hvalid.1, hvalid.2.2.1⟩

/-- An optional number, or its default. -/
theorem isInt32_getD {o : Option ℤ} (h : ∀ v, o = some v → Wire.IsInt32 v) {d : ℤ}
    (hd : Wire.IsInt32 d) : Wire.IsInt32 (o.getD d) := by
  cases o with
  | none => exact hd
  | some v => exact h v rfl

/-- The numbers that the getters return are `int`s. -/
theorem getters_isInt32 (hL : L.Lawful) {msg : IMessage} {pack : IMessagePack}
    (h : ImMessageParser.parse (codec L) msg = some pack) :
    Wire.IsInt32 (ImMessageParser.getTouchPackUid pack) ∧
      Wire.IsInt32 (pack.imMsg.seq.getD 0) := by
  obtain ⟨-, p, hp, hdata⟩ := (parse_codec_iff hL).mp h
  obtain ⟨-, _, hsome, -⟩ := (isInitialized_iff (L := L) p).mp (hL.parsed hp).2
  obtain ⟨c, hc, -⟩ := Option.map_eq_some_iff.mp hsome
  obtain ⟨htouch, hmsg⟩ :=
    messages_wellFormed (content_wellFormed (hL.wellFormed hp) hc)
  have hcontent : pack.content = c.fields.known := by
    rw [IMessagePack.content, ← hdata]
    simp [known, hc]
  unfold ImMessageParser.getTouchPackUid IMessagePack.imMsg
  rw [hcontent]
  constructor
  · refine isInt32_getD (fun v hv => ?_) (by decide)
    obtain ⟨x, hx, hv⟩ := Option.bind_eq_some_iff.mp hv
    obtain ⟨y, hy, rfl⟩ := Option.map_eq_some_iff.mp hx
    have hvalid := (htouch y hy).valid
    simp only [ImTouch.fields, List.forall_mem_cons, optional_valid] at hvalid
    exact hvalid.1 v hv
  · refine isInt32_getD (fun v hv => ?_) (by decide)
    show Wire.IsInt32 v
    cases hy : c.fields.msg with
    | none => simp [ImPackContent.known, hy] at hv
    | some y =>
      have hvalid := (hmsg y hy).valid
      simp only [ImMsg.fields, List.forall_mem_cons, optional_valid] at hvalid
      exact hvalid.2.1 v (by simpa [ImPackContent.known, hy] using hv)

/-- The message is a frame, and the parser at its other end reads `data`. -/
structure Carries (L : Libprotobuf U) (data : Xkim.ImPack) (m : IMessage) : Prop where
  framed : m.Framed
  parses : ImMessageParser.parse (codec L) m = some ⟨m, data⟩

theorem Encodable.carries (hL : L.Lawful) {data : Xkim.ImPack} (h : Encodable L data)
    {m : IMessage} (hm : Carried (codec L) data m) : Carries L data m := by
  refine ⟨hm.framed, ?_⟩
  have hread : (codec L).parse m.data = some data := hm.parse (h.inverts hL)
  obtain ⟨htype, c, hc, -⟩ := h.complete
  unfold ImMessageParser.parse
  rw [hread]
  simp [htype, hc]

theorem Encodable.carries_reply (hL : L.Lawful) {data : Xkim.ImPack} (h : Encodable L data)
    {m : IMessage} (hm : m.Framed) (uid : ℤ) :
    Carries L data (ImMessageParser.reply (codec L) uid data m) := by
  have hf := hm.fix (Int.natCast_nonneg _) h.fits.int
  refine h.carries hL (carried_write ?_ (fixIMessage_room m _).2)
  exact ⟨hf.room, hf.dataLen, hf.frameLen, hf.fits, hf.word, hf.mark⟩

/-- What is done to `mutable_content()->mutable_msg()`. -/
def updateMsg (g : ImMsg → ImMsg) (p : Message U (ImPack U)) : Message U (ImPack U) :=
  p.update fun x => { x with
    content := some ((x.content.getD default).update fun c => { c with
      msg := some ((c.msg.getD default).update g) }) }

/-- `set_msg_id(msg_id, len)`. -/
def setMsgId (mid : List UInt8) : Message U (ImPack U) → Message U (ImPack U) :=
  updateMsg fun m => { m with msgId := some mid }

/-- `clear_target_uid()` and `add_target_uid(uid)`. -/
def setTarget (uid : ℤ) : Message U (ImPack U) → Message U (ImPack U) :=
  updateMsg fun m => { m with targetUid := [uid] }

/-- `content().msg()`. -/
def imMsg (p : Message U (ImPack U)) : ImMsg :=
  ((p.fields.content.getD default).fields.msg.getD default).fields

/-- `content().has_msg()`. -/
def hasMsg (p : Message U (ImPack U)) : Bool := (p.fields.content.getD default).fields.msg.isSome

/-- The pack that goes to the other server: `createMsgAckPack` enters the id
into a request. -/
def forwarded (mid : List UInt8) (p : Message U (ImPack U)) : Message U (ImPack U) :=
  if (imMsg p).type.getD .request = .request then setMsgId mid p else p

/-- The bytes that go to the other server.  A response is not written again. -/
def forward (L : Libprotobuf U) (mid data : List UInt8) (p : Message U (ImPack U)) : List UInt8 :=
  if (imMsg p).type.getD .request = .request then L.serializeToArray (setMsgId mid p) else data

/-- The loop of `createLocalMsgPack`: the pack is changed for one target after
the other, and written for each. -/
def createCopies (L : Libprotobuf U) : List ℤ → Message U (ImPack U) → List (ℤ × List UInt8)
  | [], _ => []
  | uid :: uids, incoming =>
    (uid, L.serializeToArray (setTarget uid incoming)) ::
      createCopies L uids (setTarget uid incoming)

/-- What the targets of a message are sent, if the client has sent `data`:
`parse` and `createMsgAckPack` in one server, and `parse` and
`createLocalMsgPack` in the other. -/
def relay (L : Libprotobuf U) (mid data : List UInt8) : Option (List (ℤ × List UInt8)) :=
  (L.parseFromArray data).bind fun p =>
    (L.parseFromArray (forward L mid data p)).map fun q => createCopies L (imMsg q).targetUid q

/-! #### Changing the message -/

theorem updateMsg_wellFormed (hL : L.Lawful) {g : ImMsg → ImMsg}
    (hg : ∀ m, (∀ f ∈ ImMsg.fields L.toRuntime, f.Valid m) →
      ∀ f ∈ ImMsg.fields L.toRuntime, f.Valid (g m))
    {p : Message U (ImPack U)} (hp : WellFormed L p) : WellFormed L (updateMsg g p) := by
  have hmsg {c : Message U (ImPackContent U)}
      (hc : Wire.WellFormed L.toRuntime (ImPackContent.fields L.toRuntime) 1 c) :
      Wire.WellFormed L.toRuntime (ImMsg.fields L.toRuntime) 2 (c.fields.msg.getD default) := by
    cases hm : c.fields.msg with
    | none => exact (ImMsg.messageType hL.runtime).wellFormed_default _
    | some m => exact (messages_wellFormed hc).2 m hm
  have hcontent : Wire.WellFormed L.toRuntime (ImPackContent.fields L.toRuntime) 1
      (p.fields.content.getD default) := by
    cases hc : p.fields.content with
    | none => exact (ImPackContent.messageType hL.runtime).wellFormed_default _
    | some c => exact content_wellFormed hp hc
  have hvalid := hp.valid
  have hvalidContent := hcontent.valid
  simp only [ImPack.fields, List.forall_mem_cons, message_valid, optional_valid] at hvalid
  simp only [ImPackContent.fields, List.forall_mem_cons, message_valid] at hvalidContent
  refine ⟨?_, hp.foreign⟩
  simp only [ImPack.fields, List.forall_mem_cons, message_valid, optional_valid]
  refine ⟨trivial, ?_, hvalid.2.2.1, List.forall_mem_nil _⟩
  rintro y ⟨⟩
  refine ⟨?_, hcontent.foreign⟩
  simp only [ImPackContent.fields, List.forall_mem_cons, message_valid]
  obtain ⟨htouch, htouchRep, -, hmsgAck, hauthReq, hauthRep, -⟩ := hvalidContent
  refine ⟨htouch, htouchRep, ?_, hmsgAck, hauthReq, hauthRep, List.forall_mem_nil _⟩
  rintro y ⟨⟩
  exact ⟨hg _ (hmsg hcontent).valid, (hmsg hcontent).foreign⟩

theorem exists_of_hasMsg {p : Message U (ImPack U)} (h : hasMsg p = true) :
    ∃ c m, p.fields.content = some c ∧ c.fields.msg = some m := by
  unfold hasMsg at h
  cases hc : p.fields.content with
  | none =>
    rw [hc] at h
    cases h
  | some c =>
    rw [hc] at h
    obtain ⟨m, hm⟩ := Option.isSome_iff_exists.mp h
    exact ⟨c, m, rfl, hm⟩

/-- The required fields of the message stay, if it is there. -/
theorem updateMsg_isInitialized {g : ImMsg → ImMsg}
    (hg : ∀ m, (g m).uid = m.uid ∧ (g m).seq = m.seq ∧ (g m).type = m.type)
    {p : Message U (ImPack U)} (hmsg : hasMsg p = true) (hp : isInitialized L p = true) :
    isInitialized L (updateMsg g p) = true := by
  obtain ⟨c, m, hc, hm⟩ := exists_of_hasMsg hmsg
  obtain ⟨htype, c', hc', hcomplete⟩ := (isInitialized_iff (L := L) p).mp hp
  obtain rfl : c.fields.known = c' := by simpa [known, hc] using hc'
  have hknown : known (updateMsg g p) =
      { known p with content := some { c.fields.known with msg := some (g m.fields) } } := by
    simp [known, updateMsg, Message.update, hc, hm, ImPackContent.known]
  rw [isInitialized_iff, hknown]
  refine ⟨htype, _, rfl, { hcomplete with msg := ?_ }⟩
  rintro x ⟨⟩
  obtain ⟨huid, hseq, htype⟩ := hg m.fields
  rw [huid, hseq, htype]
  exact hcomplete.msg m.fields (by simp [ImPackContent.known, hm])

theorem setMsgId_wellFormed (hL : L.Lawful) (mid : List UInt8) {p : Message U (ImPack U)}
    (hp : WellFormed L p) : WellFormed L (setMsgId mid p) := by
  refine updateMsg_wellFormed hL (fun m hm => ?_) hp
  simpa [ImMsg.fields] using hm

theorem setTarget_wellFormed (hL : L.Lawful) {uid : ℤ} (huid : Wire.IsInt32 uid)
    {p : Message U (ImPack U)} (hp : WellFormed L p) : WellFormed L (setTarget uid p) := by
  refine updateMsg_wellFormed hL (fun m hm => ?_) hp
  simp only [ImMsg.fields, List.forall_mem_cons, optional_valid, repeated_valid, enum_valid,
    Wire.Runtime.int32_valid] at hm ⊢
  obtain ⟨hfrom, hseq, -, -, hid, hpoints, htimeout, htext, hpic, hvid, hloc, -⟩ := hm
  exact ⟨hfrom, hseq, ⟨huid, List.forall_mem_nil _⟩, trivial, hid, hpoints, htimeout, htext, hpic,
    hvid, hloc, List.forall_mem_nil _⟩

theorem targetUid_isInt32 {p : Message U (ImPack U)} (hp : WellFormed L p)
    (hmsg : hasMsg p = true) : ∀ uid ∈ (imMsg p).targetUid, Wire.IsInt32 uid := by
  obtain ⟨c, m, hc, hm⟩ := exists_of_hasMsg hmsg
  have hvalid := ((messages_wellFormed (content_wellFormed hp hc)).2 m hm).valid
  simp only [ImMsg.fields, List.forall_mem_cons, repeated_valid] at hvalid
  intro uid huid
  exact hvalid.2.2.1 uid (by simpa [imMsg, hc, hm] using huid)

theorem createCopies_eq (uids : List ℤ) (p : Message U (ImPack U)) :
    createCopies L uids p = uids.map fun uid => (uid, L.serializeToArray (setTarget uid p)) := by
  induction uids generalizing p with
  | nil => rfl
  | cons uid uids ih =>
    rw [createCopies, ih, List.map_cons]
    rfl

/-- What the second server parses. -/
structure Forwarded (L : Libprotobuf U) (mid data : List UInt8) (p q : Message U (ImPack U)) :
    Prop where
  read : L.parseFromArray (forward L mid data p) = some q
  hasMsg : hasMsg q = true
  targets : (imMsg q).targetUid = (imMsg p).targetUid

theorem forwarded_spec (hL : L.Lawful) {data : List UInt8} {p : Message U (ImPack U)}
    (hdata : L.parseFromArray data = some p) (hmsg : hasMsg p = true) {mid : List UInt8}
    (hlen : (L.serializeToArray (forwarded mid p)).length < 2 ^ 31) :
    Forwarded L mid data p (forwarded mid p) := by
  have hwf := hL.wellFormed hdata
  by_cases hreq : (imMsg p).type.getD .request = .request
  · have hinit := updateMsg_isInitialized (g := fun m => { m with msgId := some mid })
      (fun _ => ⟨rfl, rfl, rfl⟩) hmsg (hL.parsed hdata).2
    have hp : forwarded mid p = setMsgId mid p := if_pos hreq
    rw [hp] at hlen ⊢
    refine ⟨?_, rfl, rfl⟩
    rw [forward, if_pos hreq, hL.parse_serializeToArray (setMsgId_wellFormed hL mid hwf) hlen]
    exact if_pos hinit
  · -- a response is passed on as it came
    have hp : forwarded mid p = p := if_neg hreq
    rw [hp]
    refine ⟨?_, hmsg, rfl⟩
    rw [forward, if_neg hreq]
    exact hdata

/-- A request of the user 7 to the users 9 and -1, from a client that has a
field 100 in its messages. -/
def newerRequest : List UInt8 :=
  [8, 3, 18, 24, 26, 22, 8, 7, 16, 5, 24, 9, 24, 255, 255, 255, 255, 255, 255, 255, 255, 255, 1,
    32, 1, 160, 6, 1, 24, 100]

end Proto

end Xkim
