/-
MsgHandler/MessageRpc.lean

The remote call between two brokers (`thrift/gen/ms_types.{h,cpp}`,
`thrift/gen/Message.{h,cpp}`).

A broker that cannot deliver a message itself sends a `MessageRequest` to the
broker that can and waits for a `MessageResponse`.  The generated code for the two
structs, for the arguments and the result of the call, for the client and for the
processor of the server is here over any `TProtocol` and `TApplicationException`
(`MsgHandler/Thrift.lean`).  `TDispatchProcessor::process`, which reads the head of
a message and calls `dispatchCall`, is in the Thrift library and is an argument.

The client takes the next message that arrives for the answer to its call: it looks
at neither the sequence number nor, beyond skipping a struct, the name.  That this
is right rests on what happens to a connection after a call; see
`MsgHandler/Pilot/Proxy.lean`.
-/
import MsgHandler.BinaryProtocol
import MsgHandler.TargetArray

namespace Xkim.Rpc

open Thrift Thrift.Reader

variable {E X σ : Type} {P : Protocol E} {A : AppException E X}

/-! ### The structs -/

/-- A field that is written only if it is set. -/
theorem forall_mem_optional {Q : Field → Prop} {c : Bool} {f : Field} (h : Q f) :
    ∀ g ∈ if c = true then [f] else [], Q g := by
  intro g hg
  split at hg
  · rw [List.mem_singleton.mp hg]
    exact h
  · exact absurd hg List.not_mem_nil

theorem foldl_optional {α : Type} {c : Bool} {f : Field} {g : α → Field → α} {a : α} :
    (if c = true then [f] else []).foldl g a = if c = true then g a f else a := by
  split <;> rfl

/-- `ms::MessageRequest`, with its `__isset`. -/
structure MessageRequest where
  mshId : ℤ := 0
  msgId : List UInt8 := []
  msg : List UInt8 := []
  issetMshId : Bool := false
  issetMsgId : Bool := false
  issetMsg : Bool := false
  deriving DecidableEq, Repr

namespace MessageRequest

/-- The `switch` of `read`. -/
def cases (P : Protocol E) (r : MessageRequest) (ftype : TType) (fid : ℤ) :
    Option (Reader E MessageRequest) :=
  if fid = 1 ∧ ftype = .i64 then
    some do
      let v ← P.readI64
      pure { r with mshId := v, issetMshId := true }
  else if fid = 2 ∧ ftype = .string then
    some do
      let v ← P.readBinary
      pure { r with msgId := v, issetMsgId := true }
  else if fid = 3 ∧ ftype = .string then
    some do
      let v ← P.readBinary
      pure { r with msg := v, issetMsg := true }
  else none

/-- `read(iprot)`. -/
def read (P : Protocol E) (r : MessageRequest) : Reader E MessageRequest :=
  P.readStruct (cases P) r

/-- The fields that `write` writes. -/
def fields (P : Protocol E) (r : MessageRequest) : List Field :=
  (if r.issetMshId then [P.field "msh_id" .i64 1 (P.writeI64 r.mshId)] else []) ++
    ((if r.issetMsgId then [P.field "msg_id" .string 2 (P.writeBinary r.msgId)] else []) ++
      if r.issetMsg then [P.field "msg" .string 3 (P.writeBinary r.msg)] else [])

/-- `write(oprot)`. -/
def write (P : Protocol E) (r : MessageRequest) : List UInt8 :=
  P.writeStruct "MessageRequest" (r.fields P)

/-- The numbers and sizes fit their types. -/
structure Valid (r : MessageRequest) : Prop where
  mshId : IsInt 8 r.mshId
  msgId : r.msgId.length < 2 ^ 31
  msg : r.msg.length < 2 ^ 31

/-- `a` with the fields that are set in `r`. -/
def overlay (a r : MessageRequest) : MessageRequest where
  mshId := if r.issetMshId then r.mshId else a.mshId
  msgId := if r.issetMsgId then r.msgId else a.msgId
  msg := if r.issetMsg then r.msg else a.msg
  issetMshId := r.issetMshId || a.issetMshId
  issetMsgId := r.issetMsgId || a.issetMsgId
  issetMsg := r.issetMsg || a.issetMsg

/-- `a` with each member from the last field that is meant for it. -/
def ofFields (P : Protocol E) (a : MessageRequest) (fs : List Field) : MessageRequest where
  mshId := (lastField fs .i64 1).elim a.mshId (P.readI64.valueOf 0)
  msgId := (lastField fs .string 2).elim a.msgId (P.readBinary.valueOf [])
  msg := (lastField fs .string 3).elim a.msg (P.readBinary.valueOf [])
  issetMshId := a.issetMshId || (lastField fs .i64 1).isSome
  issetMsgId := a.issetMsgId || (lastField fs .string 2).isSome
  issetMsg := a.issetMsg || (lastField fs .string 3).isSome

section

variable {f : Field} {a : MessageRequest}

theorem apply_mshId {v : ℤ} (h : f.id = 1 ∧ f.type = .i64) (hv : Reads P.readI64 f.payload v) :
    Protocol.applyField (cases P) a f = { a with mshId := v, issetMshId := true } :=
  Protocol.applyField_of_reads (if_pos h) (hv.bind_nil (.pure _))

theorem apply_msgId {v : List UInt8} (h : f.id = 2 ∧ f.type = .string)
    (hv : Reads P.readBinary f.payload v) :
    Protocol.applyField (cases P) a f = { a with msgId := v, issetMsgId := true } := by
  have hcase : cases P a f.type f.id = some (P.readBinary >>= fun v =>
      Pure.pure { a with msgId := v, issetMsgId := true }) := by
    rw [cases, if_neg (by rw [h.1]; omega), if_pos h]
  exact Protocol.applyField_of_reads hcase (hv.bind_nil (.pure _))

theorem apply_msg {v : List UInt8} (h : f.id = 3 ∧ f.type = .string)
    (hv : Reads P.readBinary f.payload v) :
    Protocol.applyField (cases P) a f = { a with msg := v, issetMsg := true } := by
  have hcase : cases P a f.type f.id = some (P.readBinary >>= fun v =>
      Pure.pure { a with msg := v, issetMsg := true }) := by
    rw [cases, if_neg (by rw [h.1]; omega), if_neg (by rw [h.1]; omega), if_pos h]
  exact Protocol.applyField_of_reads hcase (hv.bind_nil (.pure _))

end

/-- A field that is known can be read. -/
theorem cases_reads {f : Field} (hf : f.Spelled P) (a : MessageRequest)
    (m : Reader E MessageRequest) (hm : cases P a f.type f.id = some m) :
    ∃ b, Reads m f.payload b := by
  unfold cases at hm
  split_ifs at hm with h₁ h₂ h₃
  · obtain ⟨v, hv⟩ := hf.i64 h₁.2
    obtain rfl := Option.some.inj hm
    exact ⟨_, hv.bind_nil (.pure _)⟩
  · obtain ⟨v, hv⟩ := hf.string h₂.2
    obtain rfl := Option.some.inj hm
    exact ⟨_, hv.bind_nil (.pure _)⟩
  · obtain ⟨v, hv⟩ := hf.string h₃.2
    obtain rfl := Option.some.inj hm
    exact ⟨_, hv.bind_nil (.pure _)⟩

theorem foldl_eq_ofFields {fs : List Field} (hfs : ∀ f ∈ fs, f.Spelled P) (a : MessageRequest) :
    fs.foldl (Protocol.applyField (cases P)) a = a.ofFields P fs := by
  induction fs using List.reverseRecOn with
  | nil =>
    show a = ofFields P a []
    cases a
    simp [ofFields, lastField]
  | append_singleton fs f ih =>
    obtain ⟨hfs, hf⟩ := List.forall_mem_append.mp hfs
    have hf := hf f (List.mem_singleton_self f)
    rw [List.foldl_append, List.foldl_cons, List.foldl_nil, ih hfs]
    -- the three fields that are known, and the others
    by_cases h₁ : f.id = 1 ∧ f.type = .i64
    · obtain ⟨v, hv⟩ := hf.i64 h₁.2
      rw [apply_mshId h₁ hv]
      simp [ofFields, lastField_concat, h₁, hv.valueOf]
    by_cases h₂ : f.id = 2 ∧ f.type = .string
    · obtain ⟨v, hv⟩ := hf.string h₂.2
      rw [apply_msgId h₂ hv]
      simp [ofFields, lastField_concat, h₂, hv.valueOf]
    by_cases h₃ : f.id = 3 ∧ f.type = .string
    · obtain ⟨v, hv⟩ := hf.string h₃.2
      rw [apply_msg h₃ hv]
      simp [ofFields, lastField_concat, h₃, hv.valueOf]
    · have hnone : cases P (ofFields P a fs) f.type f.id = none := by
        rw [cases, if_neg h₁, if_neg h₂, if_neg h₃]
      unfold Protocol.applyField
      rw [hnone]
      simp only [Option.elim_none, ofFields, lastField_concat, if_neg h₁, if_neg h₂, if_neg h₃]

/-- What was written is read. -/
theorem read_write (hP : P.Lawful) {r : MessageRequest} (h : r.Valid) (a : MessageRequest) :
    Reads (read P a) (r.write P) (a.overlay r) := by
  have hresult : (r.fields P).foldl (Protocol.applyField (cases P)) a = a.overlay r := by
    unfold fields overlay
    simp only [List.foldl_append, foldl_optional,
      fun a => apply_mshId (f := P.field "msh_id" .i64 1 _) (a := a) ⟨rfl, rfl⟩ (hP.i64 h.mshId),
      fun a => apply_msgId (f := P.field "msg_id" .string 2 _) (a := a) ⟨rfl, rfl⟩
        (hP.binary h.msgId),
      fun a => apply_msg (f := P.field "msg" .string 3 _) (a := a) ⟨rfl, rfl⟩ (hP.binary h.msg)]
    cases r.issetMshId <;> cases r.issetMsgId <;> cases r.issetMsg <;> rfl
  rw [← hresult]
  refine Protocol.readStruct_written hP (List.forall_mem_append.mpr
    ⟨?_, List.forall_mem_append.mpr ⟨?_, ?_⟩⟩) "MessageRequest" a
  · exact forall_mem_optional ⟨hP.found _ _ (by decide) (by decide),
      fun _ => ⟨_, _, rfl, (hP.i64 h.mshId).bind_nil (.pure _)⟩⟩
  · exact forall_mem_optional ⟨hP.found _ _ (by decide) (by decide),
      fun _ => ⟨_, _, rfl, (hP.binary h.msgId).bind_nil (.pure _)⟩⟩
  · exact forall_mem_optional ⟨hP.found _ _ (by decide) (by decide),
      fun _ => ⟨_, _, rfl, (hP.binary h.msg).bind_nil (.pure _)⟩⟩

/-- **Any order, and more fields.**  A request is read from its known fields, each
the last with its number and type, wherever they stand among fields that the reader
does not know or knows with another type. -/
theorem request_from_last_fields (hP : P.Lawful) {fs : List Field}
    (hfound : ∀ f ∈ fs, f.Found P) (hspelled : ∀ f ∈ fs, f.Spelled P) (name : String)
    (a : MessageRequest) : Reads (read P a) (P.writeStruct name fs) (a.ofFields P fs) := by
  rw [← foldl_eq_ofFields hspelled]
  refine Protocol.readStruct_reads hP hfound ?_ ?_ name a
  · exact fun f hf a m hm => cases_reads (hspelled f hf) a m hm
  · exact fun f hf _ _ => (hspelled f hf).skip

/-- The message after the id, a list of two numbers that nobody knows between them,
and a number where the message should be. -/
def newerFields : List Field :=
  [binary.field "msg" .string 3 (writeBinary [1]),
    ⟨.other 15, 7, [15, 0, 7], [8] ++ (writeInt 4 2 ++ ([0, 0, 0, 1] ++ [0, 0, 0, 2]))⟩,
    binary.field "msg" .i64 3 (writeInt 8 6), binary.field "msg" .string 3 (writeBinary [9, 8]),
    binary.field "msh_id" .i64 1 (writeInt 8 (-5))]

/-- What is skipped and read of the values in `newerFields`. -/
theorem spelled_i64 (name : String) (id : ℤ) {v : ℤ} (hv : IsInt 8 v) :
    (binary.field name .i64 id (writeInt 8 v)).Spelled binary where
  skip := skip_i64 v
  i64 _ := ⟨v, readInt_reads hv⟩
  string h := nomatch h

theorem spelled_string (name : String) (id : ℤ) {str : List UInt8} (h : str.length < 2 ^ 31) :
    (binary.field name .string id (writeBinary str)).Spelled binary where
  skip := skip_string h
  i64 h := nomatch h
  string _ := ⟨str, readBinary_reads h⟩

theorem skip_list : Reads (skip (.other 15))
    ([8] ++ (writeInt 4 2 ++ ([0, 0, 0, 1] ++ [0, 0, 0, 2]))) () := by
  have hnumber : ∀ (d : ℕ) (x : List UInt8), x.length = 4 → Reads (skipTo (d + 1) .i32) x () := by
    intro d x hx
    have h := readAll_reads x
    rw [hx] at h
    exact h.bind_nil (.pure ())
  refine skip_reads fun d hd => ?_
  -- the numbers are one level below the list
  obtain ⟨d, rfl⟩ : ∃ e, d = e + 1 := ⟨d - 1, by simp at hd; omega⟩
  exact (readByte_reads 8).bind ((readSize_reads (show 2 < 2 ^ 31 by decide)).bind
    ((hnumber d [0, 0, 0, 1] rfl).bind ((hnumber d [0, 0, 0, 2] rfl).bind_nil (.pure ()))))

theorem request_from_newer_fields :
    Reads (read binary {}) (binary.writeStruct "MessageRequest" newerFields)
      ⟨-5, [], [9, 8], true, false, true⟩ := by
  have hfound : ∀ f ∈ newerFields, f.Found binary := by
    refine List.forall_mem_cons.mpr ⟨binary_lawful.found _ _ (by decide) (by decide), ?_⟩
    refine List.forall_mem_cons.mpr ⟨⟨nofun, ?_, List.cons_ne_nil _ _⟩, ?_⟩
    · exact readFieldBegin_reads (k := 15) (i := 7) (by decide) (by decide)
    refine List.forall_mem_cons.mpr ⟨binary_lawful.found _ _ (by decide) (by decide), ?_⟩
    refine List.forall_mem_cons.mpr ⟨binary_lawful.found _ _ (by decide) (by decide), ?_⟩
    exact List.forall_mem_singleton.mpr (binary_lawful.found _ _ (by decide) (by decide))
  have hspelled : ∀ f ∈ newerFields, f.Spelled binary := by
    refine List.forall_mem_cons.mpr ⟨spelled_string _ _ (by decide), ?_⟩
    refine List.forall_mem_cons.mpr ⟨⟨skip_list, nofun, nofun⟩, ?_⟩
    refine List.forall_mem_cons.mpr ⟨spelled_i64 _ _ (by decide), ?_⟩
    refine List.forall_mem_cons.mpr ⟨spelled_string _ _ (by decide), ?_⟩
    exact List.forall_mem_singleton.mpr (spelled_i64 _ _ (by decide))
  have h := request_from_last_fields binary_lawful hfound hspelled "MessageRequest" {}
  rwa [show ofFields binary {} newerFields = ⟨-5, [], [9, 8], true, false, true⟩ by decide] at h

end MessageRequest

/-- `ms::MessageResponse`, with its `__isset`; the code is any `int32_t`. -/
structure MessageResponse where
  code : ℤ := 0
  msg : List UInt8 := []
  issetCode : Bool := false
  issetMsg : Bool := false
  deriving DecidableEq, Repr

namespace MessageResponse

/-- The `switch` of `read`. -/
def cases (P : Protocol E) (r : MessageResponse) (ftype : TType) (fid : ℤ) :
    Option (Reader E MessageResponse) :=
  if fid = 1 ∧ ftype = .i32 then
    some do
      let v ← P.readI32
      pure { r with code := v, issetCode := true }
  else if fid = 2 ∧ ftype = .string then
    some do
      let v ← P.readBinary
      pure { r with msg := v, issetMsg := true }
  else none

/-- `read(iprot)`. -/
def read (P : Protocol E) (r : MessageResponse) : Reader E MessageResponse :=
  P.readStruct (cases P) r

/-- The fields that `write` writes. -/
def fields (P : Protocol E) (r : MessageResponse) : List Field :=
  (if r.issetCode then [P.field "code" .i32 1 (P.writeI32 r.code)] else []) ++
    if r.issetMsg then [P.field "msg" .string 2 (P.writeBinary r.msg)] else []

/-- `write(oprot)`. -/
def write (P : Protocol E) (r : MessageResponse) : List UInt8 :=
  P.writeStruct "MessageResponse" (r.fields P)

/-- The numbers and sizes fit their types. -/
structure Valid (r : MessageResponse) : Prop where
  code : IsInt 4 r.code
  msg : r.msg.length < 2 ^ 31

/-- `a` with the fields that are set in `r`. -/
def overlay (a r : MessageResponse) : MessageResponse where
  code := if r.issetCode then r.code else a.code
  msg := if r.issetMsg then r.msg else a.msg
  issetCode := r.issetCode || a.issetCode
  issetMsg := r.issetMsg || a.issetMsg

/-- What was written is read. -/
theorem read_write (hP : P.Lawful) {r : MessageResponse} (h : r.Valid) (a : MessageResponse) :
    Reads (read P a) (r.write P) (a.overlay r) := by
  have hcode (a : MessageResponse) : Protocol.applyField (cases P) a
      (P.field "code" .i32 1 (P.writeI32 r.code)) = { a with code := r.code, issetCode := true } :=
    Protocol.applyField_of_reads rfl ((hP.i32 h.code).bind_nil (.pure _))
  have hmsg (a : MessageResponse) : Protocol.applyField (cases P) a
      (P.field "msg" .string 2 (P.writeBinary r.msg)) = { a with msg := r.msg, issetMsg := true } :=
    Protocol.applyField_of_reads rfl ((hP.binary h.msg).bind_nil (.pure _))
  have hresult : (r.fields P).foldl (Protocol.applyField (cases P)) a = a.overlay r := by
    unfold fields overlay
    simp only [List.foldl_append, foldl_optional, hcode, hmsg]
    cases r.issetCode <;> cases r.issetMsg <;> rfl
  rw [← hresult]
  refine Protocol.readStruct_written hP (List.forall_mem_append.mpr ⟨?_, ?_⟩) "MessageResponse" a
  · exact forall_mem_optional ⟨hP.found _ _ (by decide) (by decide),
      fun _ => ⟨_, _, rfl, (hP.i32 h.code).bind_nil (.pure _)⟩⟩
  · exact forall_mem_optional ⟨hP.found _ _ (by decide) (by decide),
      fun _ => ⟨_, _, rfl, (hP.binary h.msg).bind_nil (.pure _)⟩⟩

end MessageResponse

/-- `Message_dispatch_args`. -/
structure DispatchArgs where
  request : MessageRequest := {}
  issetRequest : Bool := false
  deriving DecidableEq, Repr

namespace DispatchArgs

/-- The `switch` of `read`. -/
def cases (P : Protocol E) (a : DispatchArgs) (ftype : TType) (fid : ℤ) :
    Option (Reader E DispatchArgs) :=
  if fid = 1 ∧ ftype = .struct then
    some do
      let r ← a.request.read P
      pure { a with request := r, issetRequest := true }
  else none

/-- `read(iprot)`. -/
def read (P : Protocol E) (a : DispatchArgs) : Reader E DispatchArgs := P.readStruct (cases P) a

end DispatchArgs

/-- `Message_dispatch_pargs::write(oprot)`. -/
def DispatchPargs.write (P : Protocol E) (request : MessageRequest) : List UInt8 :=
  P.writeStruct "Message_dispatch_pargs" [P.field "request" .struct 1 (request.write P)]

/-- `Message_dispatch_result` and `Message_dispatch_presult`, which holds a pointer
to what it reads. -/
structure DispatchResult where
  success : MessageResponse := {}
  issetSuccess : Bool := false
  deriving DecidableEq, Repr

namespace DispatchResult

/-- The `switch` of `read`. -/
def cases (P : Protocol E) (a : DispatchResult) (ftype : TType) (fid : ℤ) :
    Option (Reader E DispatchResult) :=
  if fid = 0 ∧ ftype = .struct then
    some do
      let r ← a.success.read P
      pure { a with success := r, issetSuccess := true }
  else none

/-- `read(iprot)`. -/
def read (P : Protocol E) (a : DispatchResult) : Reader E DispatchResult :=
  P.readStruct (cases P) a

/-- `write(oprot)`. -/
def write (P : Protocol E) (a : DispatchResult) : List UInt8 :=
  P.writeStruct "Message_dispatch_result"
    (if a.issetSuccess then [P.field "success" .struct 0 (a.success.write P)] else [])

end DispatchResult

/-! ### Client and processor -/

/-- "dispatch". -/
def DISPATCH : List UInt8 := [100, 105, 115, 112, 97, 116, 99, 104]

/-- "Invalid method name: ''", up to the name. -/
def INVALID_METHOD_NAME : List UInt8 :=
  [73, 110, 118, 97, 108, 105, 100, 32, 109, 101, 116, 104, 111, 100, 32, 110, 97, 109, 101, 58,
    32, 39]

/-- "dispatch failed: unknown result". -/
def UNKNOWN_RESULT : List UInt8 :=
  [100, 105, 115, 112, 97, 116, 99, 104, 32, 102, 97, 105, 108, 101, 100, 58, 32, 117, 110, 107,
    110, 111, 119, 110, 32, 114, 101, 115, 117, 108, 116]

/-- What `MessageClient::send_dispatch(request)` writes. -/
def MessageClient.sendDispatch (P : Protocol E) (request : MessageRequest) : List UInt8 :=
  P.writeMessageBegin DISPATCH .call 0 ++ (DispatchPargs.write P request ++ P.writeMessageEnd)

/-- `MessageClient::recv_dispatch(_return)`.  After a message of another type or
name has been skipped, the result is read from what comes next. -/
def MessageClient.recvDispatch (P : Protocol E) (A : AppException E X) (ret : MessageResponse) :
    Reader E (Except X MessageResponse) := do
  let head ← P.readMessageBegin
  if head.2.1 = .exception then do
    let x ← A.read
    P.readMessageEnd
    pure (.error x)
  else do
    if head.2.1 ≠ .reply then do
      P.skip .struct
      P.readMessageEnd
    if head.1 ≠ DISPATCH then do
      P.skip .struct
      P.readMessageEnd
    let result ← DispatchResult.read P { success := ret }
    P.readMessageEnd
    if result.issetSuccess then pure (.ok result.success)
    else pure (.error (A.make A.missingResult UNKNOWN_RESULT))

/-- What serves the calls: the response, or the text of the exception it throws,
and what becomes of the server. -/
abbrev Handler (σ : Type) : Type :=
  MessageRequest → σ → Except (List UInt8) MessageResponse × σ

/-- A message with a `TApplicationException`. -/
def exceptionMessage (P : Protocol E) (A : AppException E X) (name : List UInt8) (seqid : ℤ)
    (x : X) : List UInt8 :=
  P.writeMessageBegin name .exception seqid ++ (A.write x ++ P.writeMessageEnd)

/-- What is written for what the handler has done. -/
def MessageProcessor.answer (P : Protocol E) (A : AppException E X) (seqid : ℤ) :
    Except (List UInt8) MessageResponse → List UInt8
  | .error what => exceptionMessage P A DISPATCH seqid (A.ofMessage what)
  | .ok resp => P.writeMessageBegin DISPATCH .reply seqid ++
      (DispatchResult.write P ⟨resp, true⟩ ++ P.writeMessageEnd)

/-- `MessageProcessor::process_dispatch(seqid, iprot, oprot, ..)`: what is written,
unless the arguments cannot be read. -/
def MessageProcessor.processDispatch (P : Protocol E) (A : AppException E X)
    (handler : Handler σ) (seqid : ℤ) (input : List UInt8) (s : σ) :
    Except (Fault E) (List UInt8) × σ :=
  let readArgs : Reader E DispatchArgs := do
    let args ← DispatchArgs.read P {}
    P.readMessageEnd
    pure args
  match (readArgs input).1 with
  | .error e => (.error e, s)
  | .ok args =>
    let r := handler args.request s
    (.ok (answer P A seqid r.1), r.2)

/-- `MessageProcessor::dispatchCall(iprot, oprot, fname, seqid, ..)`. -/
def MessageProcessor.dispatchCall (P : Protocol E) (A : AppException E X) (handler : Handler σ)
    (fname : List UInt8) (seqid : ℤ) (input : List UInt8) (s : σ) :
    Except (Fault E) (List UInt8) × σ :=
  if fname = DISPATCH then processDispatch P A handler seqid input s
  else
    let skipArgs : Reader E Unit := do
      P.skip .struct
      P.readMessageEnd
    match (skipArgs input).1 with
    | .error e => (.error e, s)
    | .ok _ =>
      (.ok (exceptionMessage P A fname seqid
        (A.make A.unknownMethod (INVALID_METHOD_NAME ++ fname ++ [39]))), s)

/-- What is assumed of `TDispatchProcessor::process`: it reads the head of a message
and hands a call to `dispatchCall`. -/
def Dispatches (P : Protocol E) (A : AppException E X) (handler : Handler σ)
    (process : List UInt8 → σ → Except (Fault E) (List UInt8) × σ) : Prop :=
  ∀ frame s fname seqid input, P.readMessageBegin frame = (.ok (fname, .call, seqid), input) →
    process frame s = MessageProcessor.dispatchCall P A handler fname seqid input s

/-- The arguments as the processor reads them. -/
theorem DispatchArgs.read_write (hP : P.Lawful) {req : MessageRequest} (hreq : req.Valid) :
    Reads (DispatchArgs.read P {}) (DispatchPargs.write P req)
      ⟨({} : MessageRequest).overlay req, true⟩ := by
  refine Protocol.readStruct_singleton (g := fun a : DispatchArgs => ⟨a.request.overlay req, true⟩)
    hP (hP.found _ _ (by decide) (by decide)) (fun a => ?_) _ {}
  exact ⟨_, rfl, (MessageRequest.read_write hP hreq a.request).bind_nil (.pure _)⟩

/-- The result as the client reads it. -/
theorem DispatchResult.read_write (hP : P.Lawful) {resp : MessageResponse} (hresp : resp.Valid)
    (ret : MessageResponse) :
    Reads (DispatchResult.read P { success := ret }) (DispatchResult.write P ⟨resp, true⟩)
      ⟨ret.overlay resp, true⟩ := by
  refine Protocol.readStruct_singleton
    (g := fun a : DispatchResult => ⟨a.success.overlay resp, true⟩) hP
    (hP.found _ _ (by decide) (by decide)) (fun a => ?_) _ { success := ret }
  exact ⟨_, rfl, (MessageResponse.read_write hP hresp a.success).bind_nil (.pure _)⟩

/-- The processor runs the handler on the members that are set. -/
theorem MessageProcessor.process_sendDispatch (hP : P.Lawful) {handler : Handler σ}
    {process : List UInt8 → σ → Except (Fault E) (List UInt8) × σ}
    (hprocess : Dispatches P A handler process) {req : MessageRequest} (hreq : req.Valid) (s : σ) :
    process (MessageClient.sendDispatch P req) s =
      (.ok (answer P A 0 (handler (({} : MessageRequest).overlay req) s).1),
        (handler (({} : MessageRequest).overlay req) s).2) := by
  have hhead := hP.messageBegin (show DISPATCH.length < 2 ^ 31 by decide)
    (show TMessageType.call.Written by decide) (show IsInt 4 0 by decide)
  have hargs : Reads (DispatchArgs.read P {} >>= fun args => P.readMessageEnd >>= fun _ =>
      Pure.pure args) (DispatchPargs.write P req ++ P.writeMessageEnd)
      ⟨({} : MessageRequest).overlay req, true⟩ :=
    (DispatchArgs.read_write hP hreq).bind (hP.messageEnd.bind_nil (.pure _))
  have hargs := hargs []
  rw [List.append_nil] at hargs
  rw [MessageClient.sendDispatch, hprocess _ s _ _ _ (hhead _), dispatchCall, if_pos rfl,
    processDispatch]
  dsimp only
  rw [hargs]

/-- A reply as the client reads it. -/
theorem MessageClient.recvDispatch_reply (hP : P.Lawful) {resp : MessageResponse}
    (hresp : resp.Valid) (ret : MessageResponse) :
    Reads (recvDispatch P A ret) (MessageProcessor.answer P A 0 (.ok resp))
      (.ok (ret.overlay resp)) := by
  have hhead := hP.messageBegin (show DISPATCH.length < 2 ^ 31 by decide)
    (show TMessageType.reply.Written by decide) (show IsInt 4 0 by decide)
  refine hhead.bind ?_
  exact (DispatchResult.read_write hP hresp ret).bind (hP.messageEnd.bind_nil (.pure _))

/-- An exception as the client reads it. -/
theorem MessageClient.recvDispatch_exception (hP : P.Lawful) (hA : A.Lawful) {what : List UInt8}
    (hwhat : what.length < 2 ^ 31) (ret : MessageResponse) :
    Reads (recvDispatch P A ret) (MessageProcessor.answer P A 0 (.error what))
      (.error (A.ofMessage what)) := by
  have hhead := hP.messageBegin (show DISPATCH.length < 2 ^ 31 by decide)
    (show TMessageType.exception.Written by decide) (show IsInt 4 0 by decide)
  refine hhead.bind ?_
  exact (hA.ofMessage hwhat).bind (hP.messageEnd.bind_nil (.pure _))

/-- **The call.**  What the client sends makes the processor run the handler once, on
the members that are set, and what the processor writes is read by the client as what
the handler did: its response, or its exception. -/
theorem dispatch_round_trip (hP : P.Lawful) (hA : A.Lawful) {handler : Handler σ}
    {process : List UInt8 → σ → Except (Fault E) (List UInt8) × σ}
    (hprocess : Dispatches P A handler process) {req : MessageRequest} (hreq : req.Valid) (s : σ)
    (ret : MessageResponse) :
    let did := handler (({} : MessageRequest).overlay req) s
    ∃ out, process (MessageClient.sendDispatch P req) s = (.ok out, did.2) ∧
      (∀ resp, did.1 = .ok resp → resp.Valid →
        Reads (MessageClient.recvDispatch P A ret) out (.ok (ret.overlay resp))) ∧
      ∀ what, did.1 = .error what → what.length < 2 ^ 31 →
        Reads (MessageClient.recvDispatch P A ret) out (.error (A.ofMessage what)) := by
  intro did
  refine ⟨MessageProcessor.answer P A 0 did.1,
    MessageProcessor.process_sendDispatch hP hprocess hreq s, ?_, ?_⟩
  · intro resp hdid hresp
    rw [hdid]
    exact MessageClient.recvDispatch_reply hP hresp ret
  · intro what hdid hwhat
    rw [hdid]
    exact MessageClient.recvDispatch_exception hP hA hwhat ret

/-- A handler that counts the bytes it gets; the id of the request is not set, and
not seen. -/
def countBytes : Handler ℕ := fun req n =>
  (.ok { code := 1, issetCode := true }, n + req.msg.length + req.msgId.length)

/-- `TDispatchProcessor::process` over the binary protocol, where a message that is
not a call is not answered. -/
def binaryProcess (handler : Handler σ) (frame : List UInt8) (s : σ) :
    Except (Fault TFault) (List UInt8) × σ :=
  match binary.readMessageBegin frame with
  | (.ok (fname, .call, seqid), input) =>
    MessageProcessor.dispatchCall binary binaryException handler fname seqid input s
  | (.ok _, _) => (.ok [], s)
  | (.error e, _) => (.error e, s)

theorem dispatch_round_trip_counted :
    ∃ out, binaryProcess countBytes (MessageClient.sendDispatch binary
        { msg := [7, 8], msgId := [1], issetMsg := true }) 3 = (.ok out, 5) ∧
      Reads (MessageClient.recvDispatch binary binaryException {}) out
        (.ok ⟨1, [], true, false⟩) := by
  have hvalid : MessageRequest.Valid { msg := [7, 8], msgId := [1], issetMsg := true } :=
    ⟨by decide, by decide, by decide⟩
  have hprocess : Dispatches binary binaryException countBytes (binaryProcess countBytes) := by
    intro frame s fname seqid input h
    unfold binaryProcess
    rw [h]
  obtain ⟨out, hout, hok, -⟩ :=
    dispatch_round_trip binary_lawful binaryException_lawful hprocess hvalid 3 {}
  exact ⟨out, hout, hok _ rfl ⟨by decide, by decide⟩⟩

end Xkim.Rpc
