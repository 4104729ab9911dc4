/-
MsgHandler/ImProto.lean

The generated classes of `proto/im.pb.cc`.

The generator writes five functions for every message type, all of one shape:
`MergePartialFromCodedStream` (`Wire.merge`), `SerializeWithCachedSizes` and
its twin on arrays (`Wire.serialize`), `ByteSize` (`Wire.byteSize`),
`MergeFrom` (`Wire.mergeFrom`) and `IsInitialized` (`Wire.isInitialized`).
They differ in the list of fields only, so a class is that list here, in the
order of the file and with the numbers, types and labels that stand in it.

The runtime that they call is a parameter, and so are the two functions of
`Message` that call them, `ParseFromArray` and `SerializeToArray` (`Libprotobuf`).
`ExpectTag` and `ExpectAtEnd` are taken to look ahead only, for the field that
usually comes next: they take no other path than the loop would.  A `string` is
handled like `bytes`: `VerifyUTF8String` only writes to the log.
-/
import MsgHandler.WireBytes
import MsgHandler.WireFields
import MsgHandler.Parser

namespace Xkim

open Wire (FieldSpec Message Runtime)

/-! ### Enumerations -/

/-- `ImMsgLogicType_IsValid`, with the value. -/
def ImMsgLogicType.ofNumber : ℤ → Option ImMsgLogicType
  | 1 => some .request
  | 2 => some .response
  | _ => none

/-- The number of a value. -/
def ImMsgLogicType.toNumber : ImMsgLogicType → ℤ
  | .request => 1
  | .response => 2

/-- `ImPackType_IsValid`, with the value. -/
def ImPackType.ofNumber : ℤ → Option ImPackType
  | 0 => some .unknow
  | 1 => some .touch
  | 2 => some .touchAck
  | 3 => some .msg
  | 4 => some .msgAck
  | 5 => some .auth
  | 6 => some .authResponse
  | _ => none

/-- The number of a value. -/
def ImPackType.toNumber : ImPackType → ℤ
  | .unknow => 0
  | .touch => 1
  | .touchAck => 2
  | .msg => 3
  | .msgAck => 4
  | .auth => 5
  | .authResponse => 6

theorem ImMsgLogicType.number_spec (e : ImMsgLogicType) :
    Wire.IsInt32 e.toNumber ∧ ImMsgLogicType.ofNumber e.toNumber = some e := by
  cases e <;> decide

theorem ImPackType.number_spec (e : ImPackType) :
    Wire.IsInt32 e.toNumber ∧ ImPackType.ofNumber e.toNumber = some e := by
  cases e <;> decide

/-! ### Classes -/

instance : Inhabited ImTouch := ⟨{}⟩
instance : Inhabited ImMsg := ⟨{}⟩
instance : Inhabited ImMsgAck := ⟨{}⟩
instance : Inhabited ImAuthRequest := ⟨{}⟩
instance : Inhabited ImAuthResponse := ⟨{}⟩

section Fields

variable {U : Type} (R : Runtime U)

/-- `ImTouch`. -/
def ImTouch.fields : List (FieldSpec U ImTouch) :=
  [.optional R.int32 1 true ImTouch.uid fun v x => { x with uid := v }]

/-- `ImTouchResponse`. -/
def ImTouchResponse.fields : List (FieldSpec U ImTouch) :=
  [.optional R.int32 1 true ImTouch.uid fun v x => { x with uid := v }]

/-- `ImMsg`. -/
def ImMsg.fields : List (FieldSpec U ImMsg) :=
  [.optional R.int32 1 true ImMsg.uid fun v x => { x with uid := v },
    .optional R.int32 2 true ImMsg.seq fun v x => { x with seq := v },
    .repeated R.int32 R.readPackedInt32 3 ImMsg.targetUid
      fun v x => { x with targetUid := x.targetUid ++ [v] },
    .enum R ImMsgLogicType.ofNumber ImMsgLogicType.toNumber 4 true ImMsg.type
      fun v x => { x with type := v },
    .optional R.bytes 5 false ImMsg.msgId fun v x => { x with msgId := v },
    .optional R.float 6 false ImMsg.points fun v x => { x with points := v },
    .optional R.int32 7 false ImMsg.timeout fun v x => { x with timeout := v },
    .optional R.bytes 8 false ImMsg.textContent fun v x => { x with textContent := v },
    .optional R.bytes 9 false ImMsg.picId fun v x => { x with picId := v },
    .optional R.bytes 10 false ImMsg.vidId fun v x => { x with vidId := v },
    .optional R.bytes 11 false ImMsg.locWord fun v x => { x with locWord := v }]

/-- `ImMsgAck`. -/
def ImMsgAck.fields : List (FieldSpec U ImMsgAck) :=
  [.optional R.bytes 1 false ImMsgAck.msgId fun v x => { x with msgId := v },
    .optional R.int32 2 true ImMsgAck.seq fun v x => { x with seq := v }]

/-- `ImAuthRequest`. -/
def ImAuthRequest.fields : List (FieldSpec U ImAuthRequest) :=
  [.optional R.int32 1 true ImAuthRequest.uid fun v x => { x with uid := v },
    .optional R.bytes 2 true ImAuthRequest.token fun v x => { x with token := v }]

/-- `ImAuthResponse`. -/
def ImAuthResponse.fields : List (FieldSpec U ImAuthResponse) :=
  [.optional R.bytes 1 true ImAuthResponse.token fun v x => { x with token := v },
    .optional R.bool 2 true ImAuthResponse.authSuccess fun v x => { x with authSuccess := v }]

end Fields

namespace Proto

/-- `ImPackContent`, whose messages have unknown fields of their own. -/
structure ImPackContent (U : Type) where
  touch : Option (Message U ImTouch) := none
  touchRep : Option (Message U ImTouch) := none
  msg : Option (Message U ImMsg) := none
  msgAck : Option (Message U ImMsgAck) := none
  authReq : Option (Message U ImAuthRequest) := none
  authRep : Option (Message U ImAuthResponse) := none
  deriving Repr

/-- `ImPack`. -/
structure ImPack (U : Type) where
  type : Option ImPackType := none
  content : Option (Message U (ImPackContent U)) := none
  ts : Option ℤ := none
  deriving Repr

variable {U : Type}

instance : Inhabited (ImPackContent U) := ⟨{}⟩
instance : Inhabited (ImPack U) := ⟨{}⟩

/-- `ImPackContent`, which is inside a pack. -/
def ImPackContent.fields (R : Runtime U) : List (FieldSpec U (ImPackContent U)) :=
  [.message R (ImTouch.fields R) 1 1 false ImPackContent.touch fun v x => { x with touch := v },
    .message R (ImTouchResponse.fields R) 1 2 false ImPackContent.touchRep
      fun v x => { x with touchRep := v },
    .message R (ImMsg.fields R) 1 3 false ImPackContent.msg fun v x => { x with msg := v },
    .message R (ImMsgAck.fields R) 1 4 false ImPackContent.msgAck
      fun v x => { x with msgAck := v },
    .message R (ImAuthRequest.fields R) 1 5 false ImPackContent.authReq
      fun v x => { x with authReq := v },
    .message R (ImAuthResponse.fields R) 1 6 false ImPackContent.authRep
      fun v x => { x with authRep := v }]

/-- `ImPack`, the outermost message. -/
def ImPack.fields (R : Runtime U) : List (FieldSpec U (ImPack U)) :=
  [.enum R ImPackType.ofNumber ImPackType.toNumber 1 true ImPack.type
      fun v x => { x with type := v },
    .message R (ImPackContent.fields R) 0 2 true ImPack.content fun v x => { x with content := v },
    .optional R.int32 3 false ImPack.ts fun v x => { x with ts := v }]

/-- libprotobuf, as far as it is used. -/
structure Libprotobuf (U : Type) extends Runtime U where
  /-- `ParseFromArray`. -/
  parseFromArray : List UInt8 → Option (Message U (ImPack U))
  /-- `SerializeToArray`, into an array of `ByteSize` bytes. -/
  serializeToArray : Message U (ImPack U) → List UInt8

/-- `ByteSize`. -/
def byteSize (L : Libprotobuf U) (p : Message U (ImPack U)) : ℕ :=
  Wire.byteSize L.toRuntime (ImPack.fields L.toRuntime) p

/-- `MergeFrom`. -/
def mergeFrom (L : Libprotobuf U) (p q : Message U (ImPack U)) : Message U (ImPack U) :=
  Wire.mergeFrom (ImPack.fields L.toRuntime) p q

/-- `IsInitialized`. -/
def isInitialized (L : Libprotobuf U) (p : Message U (ImPack U)) : Bool :=
  Wire.isInitialized (ImPack.fields L.toRuntime) p

/-- What is assumed of libprotobuf.  `ParseFromArray` merges the bytes into a
cleared pack, all of them, and asks for its required fields; `SerializeToArray`
writes the pack. -/
structure Libprotobuf.Lawful (L : Libprotobuf U) : Prop where
  runtime : L.toRuntime.Lawful
  parse : ∀ data, L.parseFromArray data =
    (Wire.merge L.toRuntime (ImPack.fields L.toRuntime) 0 data default).bind fun p =>
      if isInitialized L p then some p else none
  serialize : ∀ p, L.serializeToArray p = Wire.serialize L.toRuntime (ImPack.fields L.toRuntime) p

end Proto

/-! ### The classes keep the rules of the wire format -/

section Lawful

open Wire.FieldSpec

variable {U : Type} {R : Runtime U}

theorem ImTouch.lawful (hR : R.Lawful) : Wire.Lawful R (ImTouch.fields R) where
  field := by
    simp only [ImTouch.fields, List.forall_mem_cons]
    exact ⟨optional_lawful hR.int32 (by decide), nofun⟩
  nodup := show ([1] : List ℕ).Nodup by decide

theorem ImMsg.lawful (hR : R.Lawful) : Wire.Lawful R (ImMsg.fields R) where
  field := by
    have hint {n : ℕ} {r : Bool} {get : ImMsg → Option ℤ} {put} (hn : Wire.IsNumber n) :
        (FieldSpec.optional R.int32 n r get put).Lawful R :=
      optional_lawful hR.int32 hn
    have hbytes {n : ℕ} {r : Bool} {get : ImMsg → Option (List UInt8)} {put}
        (hn : Wire.IsNumber n) : (FieldSpec.optional R.bytes n r get put).Lawful R :=
      optional_lawful hR.bytes hn
    simp only [ImMsg.fields, List.forall_mem_cons]
    exact ⟨hint (by decide), hint (by decide), repeated_lawful hR.int32
        (fun h => (hR.packed h).2) (by decide),
      enum_lawful hR ImMsgLogicType.number_spec (by decide), hbytes (by decide),
      optional_lawful hR.float (by decide), hint (by decide), hbytes (by decide),
      hbytes (by decide), hbytes (by decide), hbytes (by decide), nofun⟩
  nodup := show ([1, 2, 3, 4, 5, 6, 7, 8, 9, 10, 11] : List ℕ).Nodup by decide

theorem ImMsgAck.lawful (hR : R.Lawful) : Wire.Lawful R (ImMsgAck.fields R) where
  field := by
    simp only [ImMsgAck.fields, List.forall_mem_cons]
    exact ⟨optional_lawful hR.bytes (by decide),
      optional_lawful hR.int32 (by decide), nofun⟩
  nodup := show ([1, 2] : List ℕ).Nodup by decide

theorem ImAuthRequest.lawful (hR : R.Lawful) : Wire.Lawful R (ImAuthRequest.fields R) where
  field := by
    simp only [ImAuthRequest.fields, List.forall_mem_cons]
    exact ⟨optional_lawful hR.int32 (by decide),
      optional_lawful hR.bytes (by decide), nofun⟩
  nodup := show ([1, 2] : List ℕ).Nodup by decide

theorem ImAuthResponse.lawful (hR : R.Lawful) : Wire.Lawful R (ImAuthResponse.fields R) where
  field := by
    simp only [ImAuthResponse.fields, List.forall_mem_cons]
    exact ⟨optional_lawful hR.bytes (by decide),
      optional_lawful hR.bool (by decide), nofun⟩
  nodup := show ([1, 2] : List ℕ).Nodup by decide

/-! #### Merging into an empty message -/

theorem ImMsg.foldl_targetUid (vs : List ℤ) (m : ImMsg) :
    vs.foldl (fun m v => { m with targetUid := m.targetUid ++ [v] }) m =
      { m with targetUid := m.targetUid ++ vs } := by
  induction vs generalizing m with
  | nil => rw [List.foldl_nil, List.append_nil]
  | cons v vs ih => rw [List.foldl_cons, ih, List.append_assoc, List.singleton_append]

theorem ImMsg.merges (x : ImMsg) :
    (ImMsg.fields R).foldl (fun m f => f.merge m x) default = x := by
  rw [ImMsg.fields, List.foldl_cons, optional_merge rfl, List.foldl_cons, optional_merge rfl,
    List.foldl_cons, repeated_merge, ImMsg.foldl_targetUid, List.foldl_cons, enum_merge rfl,
    List.foldl_cons, optional_merge rfl, List.foldl_cons, optional_merge rfl, List.foldl_cons,
    optional_merge rfl, List.foldl_cons, optional_merge rfl, List.foldl_cons, optional_merge rfl,
    List.foldl_cons, optional_merge rfl, List.foldl_cons, optional_merge rfl, List.foldl_nil]
  rfl

/-! #### What the readers keep -/

theorem ImTouch.keeps (hR : R.Lawful) (d : ℕ) :
    ∀ f ∈ ImTouch.fields R, f.Keeps R (ImTouch.fields R) d := by
  refine List.forall_mem_cons.mpr ⟨optional_keeps hR.int32 ?_, nofun⟩
  intro v x hv _
  simp_all [ImTouch.fields]

theorem ImMsg.keeps (hR : R.Lawful) (d : ℕ) :
    ∀ f ∈ ImMsg.fields R, f.Keeps R (ImMsg.fields R) d := by
  nth_rewrite 1 [ImMsg.fields]
  simp only [List.forall_mem_cons]
  refine ⟨optional_keeps hR.int32 ?_, optional_keeps hR.int32 ?_,
    repeated_keeps hR.int32 (fun h => (hR.packed h).1) ?_,
    enum_keeps hR (ImMsg.lawful hR) (by decide) (by simp [ImMsg.fields]) ?_,
    optional_keeps hR.bytes ?_, optional_keeps hR.float ?_,
    optional_keeps hR.int32 ?_, optional_keeps hR.bytes ?_,
    optional_keeps hR.bytes ?_, optional_keeps hR.bytes ?_,
    optional_keeps hR.bytes ?_, nofun⟩
  all_goals
    intro v x hv hx
    simp only [ImMsg.fields, List.forall_mem_cons, optional_valid, enum_valid, repeated_valid,
      Runtime.int32_valid, Runtime.float_valid, Runtime.bytes_valid] at hv hx ⊢
    grind

theorem ImMsgAck.keeps (hR : R.Lawful) (d : ℕ) :
    ∀ f ∈ ImMsgAck.fields R, f.Keeps R (ImMsgAck.fields R) d := by
  nth_rewrite 1 [ImMsgAck.fields]
  simp only [List.forall_mem_cons]
  refine ⟨optional_keeps hR.bytes ?_, optional_keeps hR.int32 ?_, nofun⟩
  all_goals
    intro v x hv hx
    simp_all [ImMsgAck.fields]

theorem ImAuthRequest.keeps (hR : R.Lawful) (d : ℕ) :
    ∀ f ∈ ImAuthRequest.fields R, f.Keeps R (ImAuthRequest.fields R) d := by
  nth_rewrite 1 [ImAuthRequest.fields]
  simp only [List.forall_mem_cons]
  refine ⟨optional_keeps hR.int32 ?_, optional_keeps hR.bytes ?_, nofun⟩
  all_goals
    intro v x hv hx
    simp_all [ImAuthRequest.fields]

theorem ImAuthResponse.keeps (hR : R.Lawful) (d : ℕ) :
    ∀ f ∈ ImAuthResponse.fields R, f.Keeps R (ImAuthResponse.fields R) d := by
  nth_rewrite 1 [ImAuthResponse.fields]
  simp only [List.forall_mem_cons]
  refine ⟨optional_keeps hR.bytes ?_, optional_keeps hR.bool ?_, nofun⟩
  all_goals
    intro v x hv hx
    simp_all [ImAuthResponse.fields]

/-! #### The message types -/

theorem ImTouch.messageType (hR : R.Lawful) : Wire.MessageType R (ImTouch.fields R) where
  runtime := hR
  lawful := ImTouch.lawful hR
  keeps := ImTouch.keeps hR
  empty := by simp [ImTouch.fields, default]
  merges x := by rw [ImTouch.fields, List.foldl_cons, optional_merge rfl, List.foldl_nil]

theorem ImTouchResponse.messageType (hR : R.Lawful) :
    Wire.MessageType R (ImTouchResponse.fields R) :=
  ImTouch.messageType hR

theorem ImMsg.messageType (hR : R.Lawful) : Wire.MessageType R (ImMsg.fields R) where
  runtime := hR
  lawful := ImMsg.lawful hR
  keeps := ImMsg.keeps hR
  empty := by simp [ImMsg.fields, default]
  merges := ImMsg.merges

theorem ImMsgAck.messageType (hR : R.Lawful) : Wire.MessageType R (ImMsgAck.fields R) where
  runtime := hR
  lawful := ImMsgAck.lawful hR
  keeps := ImMsgAck.keeps hR
  empty := by simp [ImMsgAck.fields, default]
  merges x := by
    rw [ImMsgAck.fields, List.foldl_cons, optional_merge rfl, List.foldl_cons, optional_merge rfl,
      List.foldl_nil]

theorem ImAuthRequest.messageType (hR : R.Lawful) :
    Wire.MessageType R (ImAuthRequest.fields R) where
  runtime := hR
  lawful := ImAuthRequest.lawful hR
  keeps := ImAuthRequest.keeps hR
  empty := by simp [ImAuthRequest.fields, default]
  merges x := by
    rw [ImAuthRequest.fields, List.foldl_cons, optional_merge rfl, List.foldl_cons,
      optional_merge rfl, List.foldl_nil]

theorem ImAuthResponse.messageType (hR : R.Lawful) :
    Wire.MessageType R (ImAuthResponse.fields R) where
  runtime := hR
  lawful := ImAuthResponse.lawful hR
  keeps := ImAuthResponse.keeps hR
  empty := by simp [ImAuthResponse.fields, default]
  merges x := by
    rw [ImAuthResponse.fields, List.foldl_cons, optional_merge rfl, List.foldl_cons,
      optional_merge rfl, List.foldl_nil]

namespace Proto

theorem ImPackContent.lawful (hR : R.Lawful) : Wire.Lawful R (ImPackContent.fields R) where
  field := by
    simp only [ImPackContent.fields, List.forall_mem_cons]
    exact ⟨message_lawful (ImTouch.messageType hR) (by decide) (by decide),
      message_lawful (ImTouchResponse.messageType hR) (by decide) (by decide),
      message_lawful (ImMsg.messageType hR) (by decide) (by decide),
      message_lawful (ImMsgAck.messageType hR) (by decide) (by decide),
      message_lawful (ImAuthRequest.messageType hR) (by decide) (by decide),
      message_lawful (ImAuthResponse.messageType hR) (by decide) (by decide), nofun⟩
  nodup := show ([1, 2, 3, 4, 5, 6] : List ℕ).Nodup by decide

theorem ImPackContent.keeps (hR : R.Lawful) (d : ℕ) :
    ∀ f ∈ ImPackContent.fields R, f.Keeps R (ImPackContent.fields R) d := by
  nth_rewrite 1 [ImPackContent.fields]
  simp only [List.forall_mem_cons]
  refine ⟨message_keeps (ImTouch.messageType hR) (by simp [ImPackContent.fields]) ?_,
    message_keeps (ImTouchResponse.messageType hR) (by simp [ImPackContent.fields]) ?_,
    message_keeps (ImMsg.messageType hR) (by simp [ImPackContent.fields]) ?_,
    message_keeps (ImMsgAck.messageType hR) (by simp [ImPackContent.fields]) ?_,
    message_keeps (ImAuthRequest.messageType hR) (by simp [ImPackContent.fields]) ?_,
    message_keeps (ImAuthResponse.messageType hR) (by simp [ImPackContent.fields]) ?_, nofun⟩
  all_goals
    intro v x hv hx
    simp_all [ImPackContent.fields]

theorem ImPackContent.messageType (hR : R.Lawful) :
    Wire.MessageType R (ImPackContent.fields R) where
  runtime := hR
  lawful := ImPackContent.lawful hR
  keeps := ImPackContent.keeps hR
  empty := by simp [ImPackContent.fields, default]
  merges x := by
    rw [ImPackContent.fields, List.foldl_cons, message_merge (ImTouch.messageType hR) rfl rfl,
      List.foldl_cons, message_merge (ImTouchResponse.messageType hR) rfl rfl, List.foldl_cons,
      message_merge (ImMsg.messageType hR) rfl rfl, List.foldl_cons,
      message_merge (ImMsgAck.messageType hR) rfl rfl, List.foldl_cons,
      message_merge (ImAuthRequest.messageType hR) rfl rfl, List.foldl_cons,
      message_merge (ImAuthResponse.messageType hR) rfl rfl, List.foldl_nil]

theorem ImPack.lawful (hR : R.Lawful) : Wire.Lawful R (ImPack.fields R) where
  field := by
    simp only [ImPack.fields, List.forall_mem_cons]
    exact ⟨enum_lawful hR ImPackType.number_spec (by decide),
      message_lawful (ImPackContent.messageType hR) (by decide) (by decide),
      optional_lawful hR.int32 (by decide), nofun⟩
  nodup := show ([1, 2, 3] : List ℕ).Nodup by decide

theorem ImPack.keeps (hR : R.Lawful) (d : ℕ) :
    ∀ f ∈ ImPack.fields R, f.Keeps R (ImPack.fields R) d := by
  nth_rewrite 1 [ImPack.fields]
  simp only [List.forall_mem_cons]
  refine ⟨enum_keeps hR (ImPack.lawful hR) (by decide) (by simp [ImPack.fields]) ?_,
    message_keeps (ImPackContent.messageType hR) (by simp [ImPack.fields]) ?_,
    optional_keeps hR.int32 ?_, nofun⟩
  all_goals
    intro v x hv hx
    simp_all [ImPack.fields]

theorem ImPack.messageType (hR : R.Lawful) : Wire.MessageType R (ImPack.fields R) where
  runtime := hR
  lawful := ImPack.lawful hR
  keeps := ImPack.keeps hR
  empty := by simp [ImPack.fields, default]
  merges x := by
    rw [ImPack.fields, List.foldl_cons, enum_merge rfl, List.foldl_cons,
      message_merge (ImPackContent.messageType hR) rfl rfl, List.foldl_cons, optional_merge rfl,
      List.foldl_nil]

end Proto

end Lawful

/-! ### Required fields -/

section Initialized

variable {U : Type} (R : Runtime U)

@[simp]
theorem ImTouch.isInitialized (x : Message U ImTouch) :
    Wire.isInitialized (ImTouch.fields R) x = x.fields.uid.isSome := by
  simp [Wire.isInitialized, ImTouch.fields]

@[simp]
theorem ImTouchResponse.isInitialized (x : Message U ImTouch) :
    Wire.isInitialized (ImTouchResponse.fields R) x = x.fields.uid.isSome := by
  simp [Wire.isInitialized, ImTouchResponse.fields]

@[simp]
theorem ImMsg.isInitialized (x : Message U ImMsg) :
    Wire.isInitialized (ImMsg.fields R) x =
      (x.fields.uid.isSome && (x.fields.seq.isSome && x.fields.type.isSome)) := by
  simp [Wire.isInitialized, ImMsg.fields]

@[simp]
theorem ImMsgAck.isInitialized (x : Message U ImMsgAck) :
    Wire.isInitialized (ImMsgAck.fields R) x = x.fields.seq.isSome := by
  simp [Wire.isInitialized, ImMsgAck.fields]

@[simp]
theorem ImAuthRequest.isInitialized (x : Message U ImAuthRequest) :
    Wire.isInitialized (ImAuthRequest.fields R) x =
      (x.fields.uid.isSome && x.fields.token.isSome) := by
  simp [Wire.isInitialized, ImAuthRequest.fields]

@[simp]
theorem ImAuthResponse.isInitialized (x : Message U ImAuthResponse) :
    Wire.isInitialized (ImAuthResponse.fields R) x =
      (x.fields.token.isSome && x.fields.authSuccess.isSome) := by
  simp [Wire.isInitialized, ImAuthResponse.fields]

end Initialized

/-! ### Packs -/

namespace Proto

/-- libprotobuf with the wire format of its documentation. -/
def documented : Libprotobuf Wire.UnknownField where
  toRuntime := Wire.documented
  parseFromArray data :=
    (Wire.merge Wire.documented (ImPack.fields Wire.documented) 0 data default).bind fun p =>
      if Wire.isInitialized (ImPack.fields Wire.documented) p then some p else none
  serializeToArray p := Wire.serialize Wire.documented (ImPack.fields Wire.documented) p

theorem documented_lawful : documented.Lawful where
  runtime := Wire.documented_lawful
  parse _ := rfl
  serialize _ := rfl

variable {U : Type} {L : Libprotobuf U}

/-- A pack that `SerializeToArray` can write: every value is one of its type,
and no unknown field is one of the class. -/
def WellFormed (L : Libprotobuf U) (p : Message U (ImPack U)) : Prop :=
  Wire.WellFormed L.toRuntime (ImPack.fields L.toRuntime) 0 p

namespace Libprotobuf.Lawful

variable (hL : L.Lawful)

include hL

theorem parsed {data : List UInt8} {p : Message U (ImPack U)}
    (h : L.parseFromArray data = some p) :
    Wire.merge L.toRuntime (ImPack.fields L.toRuntime) 0 data default = some p ∧
      isInitialized L p = true := by
  rw [hL.parse] at h
  obtain ⟨q, hq, h⟩ := Option.bind_eq_some_iff.mp h
  obtain ⟨hinit, h⟩ := Option.ite_none_right_eq_some.mp h
  obtain rfl := Option.some.inj h
  exact ⟨hq, hinit⟩

/-- A pack is read back exactly if it has its required fields. -/
theorem parse_serializeToArray {p : Message U (ImPack U)} (hp : WellFormed L p)
    (hlen : (L.serializeToArray p).length < 2 ^ 31) :
    L.parseFromArray (L.serializeToArray p) = if isInitialized L p then some p else none := by
  rw [hL.serialize] at hlen ⊢
  rw [hL.parse, (ImPack.messageType hL.runtime).merge_serialize hp hlen, Option.bind_some]

theorem wellFormed {data : List UInt8} {p : Message U (ImPack U)}
    (h : L.parseFromArray data = some p) : WellFormed L p :=
  (ImPack.messageType hL.runtime).wellFormed (hL.parsed h).1

end Libprotobuf.Lawful

/-- What the pack in `data` satisfies is found by parsing it. -/
theorem exists_parsed (data : List UInt8) (Q : Message U (ImPack U) → Bool)
    (h : (L.parseFromArray data).any Q = true) :
    ∃ p, L.parseFromArray data = some p ∧ Q p = true := by
  cases hp : L.parseFromArray data with
  | none =>
    rw [hp] at h
    cases h
  | some p =>
    rw [hp] at h
    exact ⟨p, rfl, h⟩

/-- An IM_TOUCH pack of the user -2, and a field 7 that no class knows. -/
def unknownPack : List UInt8 :=
  [8, 1, 18, 13, 10, 11, 8, 254, 255, 255, 255, 255, 255, 255, 255, 255, 1, 58, 2, 8, 1]

end Proto

end Xkim
