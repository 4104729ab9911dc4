/-
MsgHandler/TargetArray.lean

The array of `ImMessageParser::createLocalMsgPack(pack)`
(`message/im_message_parser.cpp`).

Before the pack is changed in place, its targets are copied to an array of
`TARGET_MAX` entries, one per thread, and read back one after the other.  The
loop runs over all targets and nothing compares their number with the size of
the array.  A client's frame is too short for that many, but a message that
comes over the thrift call `dispatch` has any size.

`createLocalMsgPackIn` is `createLocalMsgPack` with the array, and returns the
same (`createLocalMsgPackIn_eq`).  All writes are inside the array if and only
if there are at most `TARGET_MAX` targets (`Broker.process_within_array_iff`).
-/
import MsgHandler.Broker

namespace Xkim

/-! ### The array -/

/-- `target_uid`, with the indices at which it has been written. -/
structure TargetArray where
  cells : ℕ → ℤ
  writes : List ℕ

namespace TargetArray

/-- `target_uid[i] = uid`. -/
def write (A : TargetArray) (i : ℕ) (uid : ℤ) : TargetArray :=
  ⟨Function.update A.cells i uid, A.writes ++ [i]⟩

/-- The loop that copies the targets, from the index `i` on. -/
def copyTargets : ℕ → List ℤ → TargetArray → TargetArray
  | _, [], A => A
  | i, uid :: uids, A => copyTargets (i + 1) uids (A.write i uid)

/-- **Every target is written**, at its own index. -/
theorem copyTargets_writes (i : ℕ) (uids : List ℤ) (A : TargetArray) :
    (copyTargets i uids A).writes = A.writes ++ List.range' i uids.length := by
  induction uids generalizing i A with
  | nil => exact (List.append_nil _).symm
  | cons uid uids ih =>
    rw [copyTargets, ih, List.length_cons, List.range'_succ]
    exact List.append_assoc _ _ _

theorem copyTargets_before {i k : ℕ} (hk : k < i) (uids : List ℤ) (A : TargetArray) :
    (copyTargets i uids A).cells k = A.cells k := by
  induction uids generalizing i A with
  | nil => rfl
  | cons uid uids ih =>
    rw [copyTargets, ih (Nat.lt_succ_of_lt hk)]
    exact Function.update_of_ne hk.ne _ _

/-- What is read back is what was written. -/
theorem copyTargets_cells (i : ℕ) (uids : List ℤ) (A : TargetArray) :
    (List.range' i uids.length).map (copyTargets i uids A).cells = uids := by
  induction uids generalizing i A with
  | nil => rfl
  | cons uid uids ih =>
    rw [List.length_cons, List.range'_succ, List.map_cons, copyTargets, ih,
      copyTargets_before (Nat.lt_succ_self i)]
    refine congrArg (· :: uids) ?_
    exact Function.update_self _ _ _

end TargetArray

open ImMessageParser TargetArray

namespace Job

/-- `createLocalMsgPack(pack)`, with its array. -/
def createLocalMsgPackIn (C : Codec) (type : ℕ) (A : TargetArray) (j : Job) :
    Option (Option Addr × Job × TargetArray) :=
  let targetUidCount := (targets j.data).length
  if targetUidCount = 0 then some (none, j, A)
  else
    let A := copyTargets 0 (targets j.data) A
    j.packMsg.map fun v =>
      let incoming := setTarget j.data (A.cells 0)
      let size := (C.serialize incoming).length
      let H := j.heap.setMsg v
        (fillLocal C type incoming (A.cells 0) (fixIMessage (j.heap.msg v) size))
      let uids := (List.range' 1 (targetUidCount - 1)).map A.cells
      (some v, { j with heap := createCopies C type uids incoming v H, packMsg := none }, A)

/-- The array makes no difference to the result. -/
theorem createLocalMsgPackIn_eq (C : Codec) (type : ℕ) (A : TargetArray) (j : Job) :
    j.createLocalMsgPackIn C type A =
      (j.createLocalMsgPack C type).map fun r => (r.1, r.2, copyTargets 0 (targets j.data) A) := by
  unfold createLocalMsgPackIn createLocalMsgPack
  rcases htargets : targets j.data with - | ⟨uid, uids⟩
  · rfl
  · have hcells := copyTargets_cells 0 (uid :: uids) A
    rw [List.length_cons, List.range'_succ, List.map_cons] at hcells
    obtain ⟨hfirst, hrest⟩ := List.cons.inj hcells
    have hcount : (uid :: uids).length ≠ 0 := Nat.succ_ne_zero _
    dsimp only
    rw [if_neg hcount, hfirst, List.length_cons, Nat.add_sub_cancel, hrest, Option.map_map]
    rfl

namespace Broker

/-- The array after `process(msg)`: it is written when `processMsgPack` comes to
`createLocalMsgPack`. -/
def processArray (C : Codec) (type : ℕ) (v : Addr) (H : Heap) (A : TargetArray) : TargetArray :=
  match parse C (H.msg v) with
  | none => A
  | some pack =>
    match getMessagePackType pack with
    | .msg =>
      if getMsgPackUser pack = -1 then A
      else
        match (start v pack.data H).createLocalMsgPackIn C type A with
        | none => A
        | some r => r.2.2
    | _ => A

theorem processArray_msg {C : Codec} {v : Addr} {H : Heap} {pack : IMessagePack}
    (hparse : parse C (H.msg v) = some pack) (htype : getMessagePackType pack = .msg)
    (huid : getMsgPackUser pack ≠ -1) (type : ℕ) (A : TargetArray) :
    processArray C type v H A = copyTargets 0 (targets pack.data) A := by
  unfold processArray
  rw [hparse]
  dsimp only
  rw [htype]
  dsimp only
  rw [if_neg huid, createLocalMsgPackIn_eq]
  unfold createLocalMsgPack
  rcases htargets : targets pack.data with - | ⟨uid, uids⟩
  · rw [show targets (start v pack.data H).data = _ from htargets]
    rfl
  · rw [show targets (start v pack.data H).data = _ from htargets]
    rfl

theorem processArray_other {C : Codec} {v : Addr} {H : Heap}
    (hother : ∀ pack, parse C (H.msg v) = some pack → getMessagePackType pack = .msg →
      getMsgPackUser pack = -1) (type : ℕ) (A : TargetArray) :
    processArray C type v H A = A := by
  unfold processArray
  rcases hparse : parse C (H.msg v) with - | pack
  · rfl
  · dsimp only
    split
    · rename_i htype
      exact if_pos (hother pack hparse htype)
    · rfl

/-- **When the array is not overrun.**  For every message that `process` is given,
the writes are all inside the array if and only if a pack that comes to
`createLocalMsgPack` has at most `TARGET_MAX` targets. -/
theorem process_within_array_iff (C : Codec) (type : ℕ) (v : Addr) (H : Heap) (cells : ℕ → ℤ) :
    (∀ i ∈ (processArray C type v H ⟨cells, []⟩).writes, i < TARGET_MAX) ↔
      ∀ pack, parse C (H.msg v) = some pack → getMessagePackType pack = .msg →
        getMsgPackUser pack ≠ -1 → (targets pack.data).length ≤ TARGET_MAX := by
  constructor
  · intro hwrites pack hparse htype huid
    rw [processArray_msg hparse htype huid, copyTargets_writes, List.nil_append] at hwrites
    by_contra hmore
    have hlast := hwrites TARGET_MAX (List.mem_range'_1.mpr ⟨Nat.zero_le _, by omega⟩)
    exact lt_irrefl _ hlast
  · intro hcount i hi
    by_cases hother : ∀ pack, parse C (H.msg v) = some pack → getMessagePackType pack = .msg →
        getMsgPackUser pack = -1
    · rw [processArray_other hother] at hi
      cases hi
    · push Not at hother
      obtain ⟨pack, hparse, htype, huid⟩ := hother
      rw [processArray_msg hparse htype huid, copyTargets_writes, List.nil_append,
        List.mem_range'_1] at hi
      have := hcount pack hparse htype huid
      omega

end Broker

end Job

/-! ### The call from another handler -/

/-- `ms::ResponseCode`. -/
inductive ResponseCode
  | ok
  | error
  deriving DecidableEq, Repr

/-- `MessageHandler::dispatch(_return, request)`: the code, and the message that is
scheduled.  Thrift reads the length of a string as an `i32`. -/
def MessageHandler.dispatch (request : List UInt8) (H : Heap) :
    ResponseCode × Option Addr × Heap :=
  if request ≠ [] then
    let size := toInt32 request.length
    let msg := { createIMessageOfLen size with priority := 1 }.writeData request
    (.ok, some H.brk, H.newMsg msg)
  else (.error, none, H)

theorem MessageHandler.dispatch_scheduled {request : List UInt8} (hne : request ≠ []) (H : Heap) :
    (dispatch request H).2.1 = some H.brk := by
  rw [dispatch, if_pos hne]

/-- The message holds the bytes of the request, however many. -/
theorem MessageHandler.dispatch_data {request : List UInt8} (hne : request ≠ [])
    (hlen : request.length < 2 ^ 31) (H : Heap) :
    ((dispatch request H).2.2.msg H.brk).data = request := by
  have hsize : toInt32 request.length = request.length := toInt32_natCast hlen
  unfold dispatch
  rw [if_pos hne, hsize]
  show ((Function.update H.msg H.brk _) H.brk).data = request
  rw [Function.update_self]
  exact data_writeData (m := { createIMessageOfLen request.length with priority := 1 })
    (createIMessageOfLen_room request.length) rfl

/-- Processing a request writes one entry for each of its targets. -/
theorem MessageHandler.dispatch_writes (C : Codec) {request : List UInt8} {data : ImPack}
    (hne : request ≠ []) (hlen : request.length < 2 ^ 31) (hdata : C.parse request = some data)
    (htype : data.type = some .msg) (hcontent : data.content.isSome)
    (huid : ((data.content.getD {}).msg.bind ImMsg.uid).getD (-1) ≠ -1) (type : ℕ) (H : Heap)
    (A : TargetArray) :
    (Job.Broker.processArray C type H.brk (dispatch request H).2.2 A).writes =
      A.writes ++ List.range' 0 (targets data).length := by
  have hparse : parse C ((dispatch request H).2.2.msg H.brk) =
      some ⟨(dispatch request H).2.2.msg H.brk, data⟩ := by
    unfold ImMessageParser.parse
    rw [dispatch_data hne hlen, hdata]
    simp [htype, hcontent]
  rw [Job.Broker.processArray_msg hparse (by simp [getMessagePackType, htype]) huid,
    copyTargets_writes]

/-- The encoding of a request of user 7 to 1025 targets, each of them the user 1. -/
def manyTargets : List UInt8 :=
  [8, 3, 18, 0x8B, 0x10, 26, 0x88, 0x10, 8, 7, 16, 5] ++ (List.replicate 1025 [24, 1]).flatten ++
    [32, 1]

/-- **An overrun.**  A request for 1025 users is scheduled, and processing it
writes behind the array. -/
theorem MessageHandler.dispatch_overruns :
    (dispatch manyTargets Heap.empty).2.1 = some Heap.empty.brk ∧
      TARGET_MAX ∈ (Job.Broker.processArray
        (.ofTable [(manyTargets, Job.requestTo 7 (List.replicate 1025 1))]) 0 Heap.empty.brk
        (dispatch manyTargets Heap.empty).2.2 ⟨fun _ => 0, []⟩).writes := by
  have hlen : manyTargets.length = 2064 := by
    rw [manyTargets, List.length_append, List.length_append, List.length_flatten,
      List.map_replicate, List.sum_replicate]
    rfl
  have hne : manyTargets ≠ [] := List.ne_nil_of_length_pos (hlen.symm ▸ by decide)
  have hparse : ∀ bytes data, (Codec.ofTable [(bytes, data)]).parse bytes = some data :=
    fun _ _ => List.lookup_cons_self
  have hcount : (targets (Job.requestTo 7 (List.replicate 1025 1))).length = 1025 :=
    List.length_replicate
  refine ⟨dispatch_scheduled hne Heap.empty, ?_⟩
  rw [dispatch_writes _ hne (hlen.symm ▸ by decide)
    (hparse manyTargets (Job.requestTo 7 (List.replicate 1025 1))) rfl rfl
    (show (7 : ℤ) ≠ -1 by decide), hcount, List.nil_append]
  exact List.mem_range'_1.mpr (by decide)

end Xkim
