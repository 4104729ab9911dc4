/-
MsgHandler/Disposal.lean

Who owns a message that a processor was given.

The pointer to the message is held twice, by `process` and by the pack, and
some of the `create…` functions take it out of the pack.  A handler that
returns 0 has disposed of the message: it was routed, released or handed to
the collector.  On any other value `process` disposes of it itself, through
its own pointer.

`MsgHandler/Workers.lean` says what a processor leaves in memory and which
calls it makes.  Here the same functions are followed statement by statement:
a `Job` has the pointer of the pack, and records with every call the messages
that the call takes over.  The two descriptions agree (`Auth.process_consumed`,
`App.process_consumed`).
-/
import MsgHandler.Workers

namespace Xkim

open ImMessageParser

/-! ### Jobs -/

/-- How a processor gets rid of a message. -/
inductive Manner
  | routed
  | released
  | collected
  deriving DecidableEq, Repr

/-- A processor at work on a pack.  `packMsg` is `pack->_msg`; `handed` lists
the messages that each call has taken over. -/
structure Job where
  heap : Heap
  packMsg : Option Addr
  data : ImPack
  effects : List Effect
  handed : List (Manner × List Addr)

/-- `createIMessage`, in fresh memory. -/
def Heap.newMsg (H : Heap) (msg : IMessage) : Heap :=
  { H with
    msg := Function.update H.msg H.brk msg
    next := Function.update H.next H.brk none
    brk := H.brk + 1 }

namespace Job

/-- The pack of the message at `v` has been parsed. -/
def start (v : Addr) (data : ImPack) (H : Heap) : Job := ⟨H, some v, data, [], []⟩

/-- `pack`, as the functions that read it see it; `none` is a null pointer in
`_msg`. -/
def pack (j : Job) : Option IMessagePack := j.packMsg.map fun v => ⟨j.heap.msg v, j.data⟩

/-- Overwrite a message. -/
def setMsg (j : Job) (v : Addr) (msg : IMessage) : Job := { j with heap := j.heap.setMsg v msg }

/-- A call that takes over no message. -/
def call (j : Job) (e : Effect) : Job := { j with effects := j.effects ++ [e] }

/-- The messages `l` are taken over. -/
def give (j : Job) (m : Manner) (l : List Addr) : Job := { j with handed := j.handed ++ [(m, l)] }

/-- A call that takes over the messages `l`. -/
def hand (j : Job) (e : Effect) (m : Manner) (l : List Addr) : Job := (j.call e).give m l

/-- `_msg_router->update(msg)`. -/
def update (host : ℕ) (v : Addr) (j : Job) : Job :=
  j.call (.update (ImUserMessageRouter.channelOf host (j.heap.msg v)))

/-- `_msg_router->routeBack(msg)`: the message, and what is linked to it. -/
def routeBack (v : Addr) (j : Job) : Job := j.hand (.routeBack v) .routed (j.heap.chainFrom v)

/-- `processErrorPack(msg)` of the two processors of client messages. -/
def processErrorPack (v : Addr) (j : Job) : Job :=
  (j.setMsg v (Xkim.processErrorPack (j.heap.msg v))).routeBack v

/-- `createTouchAckPack(uid, pack)`; it takes the message out of the pack. -/
def createTouchAckPack (C : Codec) (now uid : ℤ) (j : Job) : Option (Addr × Job) :=
  j.packMsg.map fun v =>
    (v, { j.setMsg v (ImMessageParser.createTouchAckPack C now uid ⟨j.heap.msg v, j.data⟩) with
      packMsg := none })

/-- `createAuthPack(uid, pack)`; it takes the message out of the pack. -/
def createAuthPack (C : Codec) (now uid : ℤ) (j : Job) : Option (Addr × Job) :=
  j.packMsg.map fun v =>
    (v, { j.setMsg v (ImMessageParser.createAuthPack C now uid ⟨j.heap.msg v, j.data⟩) with
      packMsg := none })

/-- `createMsgAckPack(pack, uid, msg_id, len)`: the message stays in the pack,
and the ack is a new one. -/
def createMsgAckPack (C : Codec) (now uid : ℤ) (mid : List UInt8) (j : Job) :
    Option (Addr × Job) :=
  j.packMsg.map fun v =>
    let r := ImMessageParser.createMsgAckPack C now ⟨j.heap.msg v, j.data⟩ uid mid
    (j.heap.brk, { j with heap := (j.heap.setMsg v r.1).newMsg r.2 })

/-- The end of `process`: what a handler did not accept is an error. -/
def finish (v : Addr) (r : ℤ × Job) : ℤ × Job :=
  if r.1 = 0 then (0, r.2) else (-1, r.2.processErrorPack v)

/-! #### `im::ImMessageAuthProcessor` -/

namespace Auth

/-- `processAuthPack(pack)`. -/
def processAuthPack (C : Codec) (host : ℕ) (now : ℤ) (j : Job) : Option (ℤ × Job) :=
  j.pack.bind fun pack =>
    if checkTimeStamp pack = -1 then some (-1, j)
    else if pack.msg.state ≠ AUTH_STATE then some (-1, j)
    else if ImMessageAuthProcessor.auth pack = 0 then
      let uid := getAuthPackUid pack
      (j.createAuthPack C now uid).map fun r =>
        let msg := r.1
        let j := r.2.setMsg msg { r.2.heap.msg msg with state := MSG_STATE, switchState := true }
        (0, ((j.update host msg).routeBack msg).call (.publish uid))
    else some (-1, j)

/-- `process(msg)`. -/
def process (C : Codec) (host : ℕ) (now : ℤ) (v : Addr) (H : Heap) : Option (ℤ × Job) :=
  match parse C (H.msg v) with
  | none => some (-1, (start v {} H).processErrorPack v)
  | some pack =>
    (match getMessagePackType pack with
      | .auth => processAuthPack C host now (start v pack.data H)
      | _ => some (-1, start v pack.data H)).map (finish v)

end Auth

/-! #### `im::ImMessageProcessor` -/

namespace App

/-- `processTouchPack(pack)`. -/
def processTouchPack (C : Codec) (host : ℕ) (now : ℤ) (j : Job) : Option (ℤ × Job) :=
  j.pack.bind fun pack =>
    if checkTimeStamp pack = -1 then some (-1, j)
    else if pack.msg.state ≠ MSG_STATE then some (-1, j)
    else
      let uid := getTouchPackUid pack
      if uid = -1 then some (-1, j)
      else
        (j.createTouchAckPack C now uid).map fun r =>
          (0, (r.2.update host r.1).routeBack r.1)

/-- The second half of `processMsgPack`: the message goes to the broker, and is
not needed any more unless that fails.  `ret` is whether `_broker->dispatch`
succeeds, and `collects` whether there is a collector. -/
def dispatchMsg (uid : ℤ) (mid : List UInt8) (ret collects : Bool) (j : Job) : Option (ℤ × Job) :=
  j.packMsg.map fun msg =>
    let j := j.setMsg msg { j.heap.msg msg with uid := uid, id := mid }
    let j := j.call (.dispatch msg)
    if ret then (0, j.hand (.release msg) .released [msg])
    else if collects then (0, j.hand (.collect msg) .collected [msg])
    else (0, j.hand (.release msg) .released [msg])

/-- `processMsgPack(pack)`. -/
def processMsgPack (C : Codec) (now : ℤ) (mid : List UInt8) (ret collects : Bool) (j : Job) :
    Option (ℤ × Job) :=
  j.pack.bind fun pack =>
    if checkTimeStamp pack = -1 then some (-1, j)
    else if pack.msg.state ≠ MSG_STATE then some (-1, j)
    else
      let uid := getMsgPackUser pack
      if uid = -1 then some (-1, j)
      else if getMsgPackTargetUserCount pack ≤ 0 then some (-1, j)
      else
        (j.createMsgAckPack C now uid mid).bind fun r =>
          dispatchMsg uid mid ret collects (r.2.routeBack r.1)

/-- `processAuthPack(pack)`. -/
def processAuthPack (C : Codec) (now : ℤ) (j : Job) : Option (ℤ × Job) :=
  j.pack.bind fun pack =>
    if checkTimeStamp pack = -1 then some (-1, j)
    else if pack.msg.state ≠ MSG_STATE then some (-1, j)
    else
      let uid := getAuthPackUid pack
      if uid ≠ -1 then
        (j.createAuthPack C now uid).map fun r => (0, r.2.routeBack r.1)
      else some (-1, j)

/-- `process(msg)`. -/
def process (C : Codec) (host : ℕ) (now : ℤ) (mid : List UInt8) (ret collects : Bool) (v : Addr)
    (H : Heap) : Option (ℤ × Job) :=
  match parse C (H.msg v) with
  | none => some (-1, (start v {} H).processErrorPack v)
  | some pack =>
    (match getMessagePackType pack with
      | .msg => processMsgPack C now mid ret collects (start v pack.data H)
      | .touch => processTouchPack C host now (start v pack.data H)
      | .auth => processAuthPack C now (start v pack.data H)
      | _ => some (-1, start v pack.data H)).map (finish v)

end App

/-! ### Messages in hand -/

/-- How often the calls have taken over the message `v`. -/
def times (v : Addr) (j : Job) : ℕ := (j.handed.map fun h => h.2.count v).sum

@[simp] theorem times_start (v w : Addr) (data : ImPack) (H : Heap) :
    (start w data H).times v = 0 := rfl

@[simp] theorem times_call (v : Addr) (j : Job) (e : Effect) : (j.call e).times v = j.times v := rfl

@[simp] theorem times_setMsg (v w : Addr) (j : Job) (m : IMessage) :
    (j.setMsg w m).times v = j.times v := rfl

@[simp] theorem times_give (v : Addr) (j : Job) (m : Manner) (l : List Addr) :
    (j.give m l).times v = j.times v + l.count v := by
  simp [times, give]

@[simp] theorem times_hand (v : Addr) (j : Job) (e : Effect) (m : Manner) (l : List Addr) :
    (j.hand e m l).times v = j.times v + l.count v := times_give ..

end Job

/-- A message in the hands of one worker: it is in memory, and linked to
nothing. -/
structure Held (H : Heap) (v : Addr) : Prop where
  lt : v < H.brk
  next : H.next v = none

namespace Held

variable {H : Heap} {v : Addr}

theorem chainFrom_eq (h : Held H v) : H.chainFrom v = [v] := by
  refine Heap.chainFrom_eq ⟨rfl, h.next⟩ ?_
  simpa using h.lt

theorem setMsg (h : Held H v) (w : Addr) (m : IMessage) : Held (H.setMsg w m) v := ⟨h.lt, h.next⟩

theorem ne_brk (h : Held H v) : v ≠ H.brk := h.lt.ne

/-- A new message is in the hands of the one who made it. -/
theorem newMsg (H : Heap) (m : IMessage) : Held (H.newMsg m) H.brk :=
  ⟨Nat.lt_succ_self _, Function.update_self ..⟩

/-- What an app worker takes from its queue. -/
theorem of_priorityQueue {Q Q' : MsMessagePriorityQueue} {H' : Heap}
    (hget : Q.get H = some (v, Q', H')) (hv : v < H.brk) : Held H' v := by
  unfold MsMessagePriorityQueue.get at hget
  split at hget
  · cases hget
  · obtain ⟨w, -, hw⟩ := Option.map_eq_some_iff.mp hget
    obtain ⟨rfl, -, rfl⟩ := hw
    exact ⟨hv, Function.update_self ..⟩

/-- What an auth worker or a worker of the broker takes. -/
theorem of_blockQueue {Q Q' : MsMessageBlockQueue} {H' : Heap} {l : List Addr} (h : Q.Rep H l)
    (hl : ∀ a ∈ l, a < H.brk) (hget : Q.getCount 1 H = some (v, Q', H')) : Held H' v := by
  have hne : l ≠ [] := by
    rintro rfl
    rw [h.getCount_nil] at hget
    cases hget
  obtain ⟨w, Q'', next', hcall, htaken, -⟩ := h.getCount hne Nat.one_pos
  obtain ⟨rfl, -, rfl⟩ := Option.some.inj (hget.symm.trans hcall)
  -- the chain of one message that is taken
  obtain ⟨a, l, rfl⟩ := List.exists_cons_of_ne_nil hne
  obtain ⟨ha, hlast⟩ := htaken
  obtain rfl := Option.some.inj ha
  exact ⟨hl v List.mem_cons_self, hlast⟩

end Held

@[simp] theorem Heap.setMsg_self (H : Heap) (v : Addr) (m : IMessage) :
    (H.setMsg v m).msg v = m := Function.update_self ..

@[simp] theorem Heap.setMsg_setMsg (H : Heap) (v : Addr) (m m' : IMessage) :
    (H.setMsg v m).setMsg v m' = H.setMsg v m' := by
  simp [Heap.setMsg]

/-- Changing a message before or after another is created. -/
theorem Heap.newMsg_setMsg {v : Addr} {H : Heap} (hv : v ≠ H.brk) (m m' : IMessage)
    (f : IMessage → IMessage) :
    ((H.setMsg v m).newMsg m').setMsg v (f (((H.setMsg v m).newMsg m').msg v)) =
      { H.setMsg H.brk m' with
        next := Function.update H.next H.brk none, brk := H.brk + 1 }.setMsg v (f m) := by
  have hm : ((H.setMsg v m).newMsg m').msg v = m := by
    show Function.update (Function.update H.msg v m) H.brk m' v = m
    rw [Function.update_of_ne hv, Function.update_self]
  have hmsg : Function.update (Function.update (Function.update H.msg v m) H.brk m') v (f m) =
      Function.update (Function.update H.msg H.brk m') v (f m) := by
    rw [Function.update_comm hv, Function.update_idem]
  rw [hm]
  unfold Heap.setMsg Heap.newMsg
  dsimp only
  rw [hmsg]

namespace Job

variable (C : Codec) (host : ℕ) (now : ℤ) (mid : List UInt8) (ret collects : Bool)
  {v : Addr} {H : Heap} {j : Job}

theorem pack_eq (hj : j.packMsg = some v) : j.pack = some ⟨j.heap.msg v, j.data⟩ := by
  rw [pack, hj]
  rfl

/-- A message in hand is routed alone. -/
theorem times_routeBack (hv : Held j.heap v) : (j.routeBack v).times v = j.times v + 1 := by
  rw [routeBack, times_hand, hv.chainFrom_eq, List.count_singleton_self]

/-! ### Handlers -/

/-- What a handler makes of a job on the message `v`: it disposes of the
message once and returns 0, or it returns -1 and has done nothing. -/
def Settles (v : Addr) (j : Job) (r : ℤ × Job) : Prop :=
  (r.1 = 0 ∧ r.2.times v = j.times v + 1) ∨ r = (-1, j)

/-- The outcome is what the other description of the handler says. -/
def Matches (j : Job) (r : ℤ × Job) : Option Processed → Prop
  | some p => r.1 = 0 ∧ r.2.heap = p.heap ∧ r.2.effects = j.effects ++ p.effects
  | none => r = (-1, j)

theorem Auth.processAuthPack_settles (hj : j.packMsg = some v) (hv : Held j.heap v) :
    ∃ r, Auth.processAuthPack C host now j = some r ∧ Settles v j r ∧ Matches j r
      ((ImMessageAuthProcessor.processAuthPack C now ⟨j.heap.msg v, j.data⟩).map fun msg =>
        ⟨j.heap.setMsg v msg, [.update (ImUserMessageRouter.channelOf host msg), .routeBack v,
          .publish msg.uid]⟩) := by
  unfold Auth.processAuthPack ImMessageAuthProcessor.processAuthPack
  rw [pack_eq hj, Option.bind_some]
  by_cases hts : checkTimeStamp ⟨j.heap.msg v, j.data⟩ = -1
  · rw [if_pos hts, if_pos hts]
    exact ⟨_, rfl, Or.inr rfl, rfl⟩
  · by_cases hstate : (j.heap.msg v).state ≠ AUTH_STATE
    · rw [if_neg hts, if_neg hts, if_pos hstate, if_pos hstate]
      exact ⟨_, rfl, Or.inr rfl, rfl⟩
    · by_cases hauth : ImMessageAuthProcessor.auth ⟨j.heap.msg v, j.data⟩ = 0
      · rw [if_neg hts, if_neg hts, if_neg hstate, if_neg hstate, if_pos hauth, if_pos hauth]
        dsimp only
        rw [Job.createAuthPack, hj]
        refine ⟨_, rfl, Or.inl ⟨rfl, ?_⟩, rfl, ?_, ?_⟩
        · exact times_routeBack (j := update host v (setMsg _ v _)) ((hv.setMsg v _).setMsg v _)
        · simp [call, routeBack, hand, give, update, setMsg]
        · simp [call, routeBack, hand, give, update, setMsg, ImMessageParser.createAuthPack, reply,
            IMessage.writeData]
      · rw [if_neg hts, if_neg hts, if_neg hstate, if_neg hstate, if_neg hauth, if_neg hauth]
        exact ⟨_, rfl, Or.inr rfl, rfl⟩

/-- What the handlers check first: a pack with a bad time stamp, or from a connection that
is not in `MSG_STATE`, is refused. -/
theorem settles_of_accepted {pack : IMessagePack} {x : Option (ℤ × Job)} {y : Option Processed}
    (haccepted : ∃ r, x = some r ∧ Settles v j r ∧ Matches j r y) :
    ∃ r, (if checkTimeStamp pack = -1 then some (-1, j)
        else if pack.msg.state ≠ MSG_STATE then some (-1, j) else x) = some r ∧
      Settles v j r ∧ Matches j r (if ImMessageProcessor.refused pack then none else y) := by
  unfold ImMessageProcessor.refused
  by_cases hts : checkTimeStamp pack = -1
  · simp only [hts, if_true, decide_true, Bool.true_or]
    exact ⟨_, rfl, Or.inr rfl, rfl⟩
  · by_cases hstate : pack.msg.state = MSG_STATE
    · simpa [hts, hstate] using haccepted
    · simp only [hts, hstate, ne_eq, not_false_eq_true, if_true, if_false, decide_true,
        Bool.or_true]
      exact ⟨_, rfl, Or.inr rfl, rfl⟩

theorem App.processTouchPack_settles (hj : j.packMsg = some v) (hv : Held j.heap v) :
    ∃ r, App.processTouchPack C host now j = some r ∧ Settles v j r ∧ Matches j r
      (ImMessageProcessor.processTouchPack C host now ⟨j.heap.msg v, j.data⟩ v j.heap) := by
  unfold App.processTouchPack ImMessageProcessor.processTouchPack
  rw [pack_eq hj, Option.bind_some]
  refine settles_of_accepted ?_
  dsimp only
  by_cases huid : getTouchPackUid ⟨j.heap.msg v, j.data⟩ = -1
  · rw [if_pos huid, if_pos huid]
    exact ⟨_, rfl, Or.inr rfl, rfl⟩
  · rw [if_neg huid, if_neg huid, Job.createTouchAckPack, hj]
    refine ⟨_, rfl, Or.inl ⟨rfl, ?_⟩, rfl, rfl, ?_⟩
    · exact times_routeBack (j := update host v { setMsg _ v _ with packMsg := none })
        (hv.setMsg v _)
    · simp [routeBack, hand, give, update, call, setMsg]

theorem App.processAuthPack_settles (hj : j.packMsg = some v) (hv : Held j.heap v) :
    ∃ r, App.processAuthPack C now j = some r ∧ Settles v j r ∧ Matches j r
      (ImMessageProcessor.processAuthPack C now ⟨j.heap.msg v, j.data⟩ v j.heap) := by
  unfold App.processAuthPack ImMessageProcessor.processAuthPack
  rw [pack_eq hj, Option.bind_some]
  refine settles_of_accepted ?_
  dsimp only
  by_cases huid : getAuthPackUid ⟨j.heap.msg v, j.data⟩ = -1
  · rw [if_neg (not_not.mpr huid), if_pos huid]
    exact ⟨_, rfl, Or.inr rfl, rfl⟩
  · rw [if_pos huid, if_neg huid, Job.createAuthPack, hj]
    refine ⟨_, rfl, Or.inl ⟨rfl, ?_⟩, rfl, rfl, ?_⟩
    · exact times_routeBack (j := { setMsg _ v _ with packMsg := none }) (hv.setMsg v _)
    · simp [routeBack, hand, give, call, setMsg]

/-- The ack is a message of its own: routing it does not touch `v`. -/
theorem times_routeBack_ack (hv : Held j.heap v) (m m' : IMessage) :
    (routeBack j.heap.brk { j with heap := (j.heap.setMsg v m).newMsg m' }).times v =
      j.times v := by
  have hack : ((j.heap.setMsg v m).newMsg m').chainFrom j.heap.brk = [j.heap.brk] :=
    (Held.newMsg (j.heap.setMsg v m) m').chainFrom_eq
  rw [routeBack, times_hand]
  dsimp only
  rw [hack, List.count_singleton, if_neg (by simpa using hv.ne_brk.symm)]
  rfl

theorem App.dispatchMsg_settles (uid : ℤ) (hj : j.packMsg = some v) :
    ∃ r, App.dispatchMsg uid mid ret collects j = some r ∧ r.1 = 0 ∧
      r.2.times v = j.times v + 1 ∧
      r.2.heap = j.heap.setMsg v { j.heap.msg v with uid := uid, id := mid } ∧
      r.2.effects = j.effects ++
        [.dispatch v, if !ret && collects then .collect v else .release v] := by
  rw [App.dispatchMsg, hj, Option.map_some]
  refine ⟨_, rfl, ?_⟩
  cases ret with
  | true => simp [hand, give, call, setMsg, times]
  | false => cases collects <;> simp [hand, give, call, setMsg, times]

theorem App.processMsgPack_settles (hj : j.packMsg = some v) (hv : Held j.heap v) :
    ∃ r, App.processMsgPack C now mid ret collects j = some r ∧ Settles v j r ∧ Matches j r
      (ImMessageProcessor.processMsgPack C now mid ret collects ⟨j.heap.msg v, j.data⟩ v
        j.heap) := by
  unfold App.processMsgPack ImMessageProcessor.processMsgPack
  rw [pack_eq hj, Option.bind_some]
  refine settles_of_accepted ?_
  dsimp only
  by_cases huid : getMsgPackUser ⟨j.heap.msg v, j.data⟩ = -1
  · rw [if_pos huid, if_pos huid]
    exact ⟨_, rfl, Or.inr rfl, rfl⟩
  · by_cases hcount : getMsgPackTargetUserCount ⟨j.heap.msg v, j.data⟩ ≤ 0
    · rw [if_neg huid, if_neg huid, if_pos hcount, if_pos hcount]
      exact ⟨_, rfl, Or.inr rfl, rfl⟩
    · rw [if_neg huid, if_neg huid, if_neg hcount, if_neg hcount, Job.createMsgAckPack, hj,
        Option.map_some, Option.bind_some]
      -- the ack has been created and routed; then the message is dispatched
      obtain ⟨r, hr, hret, htimes, hheap, heffects⟩ :=
        App.dispatchMsg_settles mid ret collects (getMsgPackUser ⟨j.heap.msg v, j.data⟩)
          (j := routeBack j.heap.brk { j with heap := Heap.newMsg (j.heap.setMsg v _) _ }) hj
      refine ⟨r, ?_, Or.inl ⟨hret, ?_⟩, hret, ?_, ?_⟩
      · rw [← hr, hj]
      · rw [htimes, times_routeBack_ack hv]
      · rw [hheap]
        exact Heap.newMsg_setMsg hv.ne_brk _ _ fun m =>
          { m with uid := getMsgPackUser ⟨j.heap.msg v, j.data⟩, id := mid }
      · rw [heffects]
        simp [routeBack, hand, give, call]

/-! ### Processors -/

/-- The message has been disposed of once; on an error return by one call,
which took this message alone. -/
structure Consumed (v : Addr) (m : Manner) (r : ℤ × Job) : Prop where
  once : r.2.times v = 1
  error : r.1 ≠ 0 → r.2.handed = [(m, [v])]

theorem processErrorPack_handed (hv : Held H v) (data : ImPack) :
    ((start v data H).processErrorPack v).handed = [(.routed, [v])] := by
  show [(Manner.routed, Heap.chainFrom (H.setMsg v _) v)] = _
  rw [(hv.setMsg v _).chainFrom_eq]

theorem consumed_error (hv : Held H v) (data : ImPack) :
    Consumed v .routed (-1, (start v data H).processErrorPack v) := by
  refine ⟨?_, fun _ => processErrorPack_handed hv data⟩
  rw [times, processErrorPack_handed hv data]
  simp

/-- **The end of `process`** disposes of what its handler has not. -/
theorem Settles.consumed {data : ImPack} {r : ℤ × Job} (h : Settles v (start v data H) r)
    (hv : Held H v) : Consumed v .routed (finish v r) := by
  rcases h with ⟨hret, htimes⟩ | rfl
  · rw [finish, if_pos hret]
    exact ⟨htimes, fun hne => absurd rfl hne⟩
  · exact consumed_error hv data

/-- The same memory and the same calls. -/
def Agrees (r : ℤ × Job) (p : Processed) : Prop := r.2.heap = p.heap ∧ r.2.effects = p.effects

theorem Matches.agrees {data : ImPack} {r : ℤ × Job} {p : Option Processed}
    (h : Matches (start v data H) r p) : Agrees (finish v r) (p.getD (Processed.error v H)) := by
  cases p with
  | none =>
    obtain rfl : r = _ := h
    exact ⟨rfl, rfl⟩
  | some p =>
    obtain ⟨hret, hheap, heffects⟩ := h
    rw [finish, if_pos hret]
    exact ⟨hheap, heffects⟩

/-- What is known of a handler is known of `process`. -/
theorem finish_consumed {data : ImPack} {f : Option (ℤ × Job)} {p : Option Processed}
    (hv : Held H v)
    (h : ∃ r, f = some r ∧ Settles v (start v data H) r ∧ Matches (start v data H) r p) :
    ∃ r, f.map (finish v) = some r ∧ Consumed v .routed r ∧
      Agrees r (p.getD (Processed.error v H)) := by
  obtain ⟨r, rfl, hsettles, hmatches⟩ := h
  exact ⟨finish v r, rfl, hsettles.consumed hv, hmatches.agrees⟩

theorem start_pack {pack : IMessagePack} (hparse : parse C (H.msg v) = some pack) :
    (⟨(start v pack.data H).heap.msg v, (start v pack.data H).data⟩ : IMessagePack) = pack := by
  show (⟨H.msg v, pack.data⟩ : IMessagePack) = pack
  rw [← (parse_some hparse).1]

/-- **`ImMessageAuthProcessor::process`** disposes of its message once. -/
theorem Auth.process_consumed (hv : Held H v) :
    ∃ r, Auth.process C host now v H = some r ∧ Consumed v .routed r ∧
      Agrees r (ImMessageAuthProcessor.process C host now v H) := by
  unfold Auth.process ImMessageAuthProcessor.process ImMessageAuthProcessor.accept
  rcases hparse : parse C (H.msg v) with - | pack
  · exact ⟨_, rfl, consumed_error hv {}, rfl, rfl⟩
  · have hauth := Auth.processAuthPack_settles C host now (j := start v pack.data H) rfl hv
    rw [start_pack C hparse] at hauth
    rcases htype : getMessagePackType pack
    case auth =>
      simp only [htype]
      have hfinish := finish_consumed hv hauth
      rcases haccept : ImMessageAuthProcessor.processAuthPack C now pack with - | msg
      · rw [haccept] at hfinish
        exact hfinish
      · rw [haccept] at hfinish
        exact hfinish
    all_goals
      -- any other pack is refused
      simp only [htype]
      exact ⟨_, rfl, consumed_error hv pack.data, rfl, rfl⟩

/-- **`ImMessageProcessor::process`** disposes of its message once. -/
theorem App.process_consumed (hv : Held H v) :
    ∃ r, App.process C host now mid ret collects v H = some r ∧ Consumed v .routed r ∧
      Agrees r (ImMessageProcessor.process C host now mid ret collects v H) := by
  unfold App.process ImMessageProcessor.process ImMessageProcessor.handle
  rcases hparse : parse C (H.msg v) with - | pack
  · exact ⟨_, rfl, consumed_error hv {}, rfl, rfl⟩
  · have hmsg := App.processMsgPack_settles C now mid ret collects
      (j := start v pack.data H) rfl hv
    have htouch := App.processTouchPack_settles C host now (j := start v pack.data H) rfl hv
    have hauth := App.processAuthPack_settles C now (j := start v pack.data H) rfl hv
    rw [start_pack C hparse] at hmsg htouch hauth
    rcases htype : getMessagePackType pack <;> simp only [htype]
    case msg => exact finish_consumed hv hmsg
    case touch => exact finish_consumed hv htouch
    case auth => exact finish_consumed hv hauth
    all_goals exact ⟨_, rfl, consumed_error hv pack.data, rfl, rfl⟩

end Job

end Xkim
