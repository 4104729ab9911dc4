/-
MsgHandler/Workers.lean

From a received message to the reply: `im::ImMessageDispatcher`, the queues
of the two worker clusters, and the processors behind them.

The dispatcher looks at the state of a message, which is the state its
connection had when the frame arrived.  Messages of a connection that has not
authenticated go to the auth workers, all others to the app workers.

A processor changes the message it is given, which nobody else holds at that
time, and calls the router, the broker and the collector.  Other threads run
between these calls, so a processor returns them as a list of `Effect`s, to
be performed one by one in this order.
-/
import MsgHandler.Parser
import MsgHandler.UserRouter

namespace Xkim

/-! ### The queue of the auth workers -/

/-- `item = item->_next`, `n` times; `none` if it runs off the list. -/
def follow (next : Addr → Option Addr) : ℕ → Addr → Option Addr
  | 0, v => some v
  | n + 1, v => (next v).bind (follow next n)

/-- `MsMessageBlockQueue::get(count)`: take the first `count` messages.  It
blocks on an empty queue. -/
def MsMessageBlockQueue.getCount (Q : MsMessageBlockQueue) (count : ℕ) (H : Heap) :
    Option (Addr × MsMessageBlockQueue × Heap) :=
  if Q.listSize = 0 then none
  else
    Q.links.head.bind fun v =>
      if Q.listSize > count then
        (follow H.next (count - 1) v).map fun item =>
          (v, ⟨⟨H.next item, Q.links.tail⟩, Q.listSize - count⟩, H.setNext item none)
      else some (v, MsMessageBlockQueue.empty, H)

theorem MsMessageBlockQueue.Rep.getCount_nil {Q : MsMessageBlockQueue} {H : Heap}
    (h : Q.Rep H []) (count : ℕ) : Q.getCount count H = none := by
  have hsize : Q.listSize = 0 := h.2
  rw [MsMessageBlockQueue.getCount, if_pos hsize]

/-- **`get(count)` takes the first messages**, as many as there are of them, and
writes nothing but links. -/
theorem MsMessageBlockQueue.Rep.getCount {Q : MsMessageBlockQueue} {H : Heap} {l : List Addr}
    {count : ℕ} (h : Q.Rep H l) (hne : l ≠ []) (hpos : 0 < count) :
    ∃ v Q' next', Q.getCount count H = some (v, Q', { H with next := next' }) ∧
      Chain next' (some v) (l.take count) ∧ Q'.Rep { H with next := next' } (l.drop count) := by
  obtain ⟨hlinks, hsize⟩ := h
  have hlen := List.length_pos_iff.mpr hne
  by_cases hlt : count < l.length
  · obtain ⟨n, rfl⟩ : ∃ n, count = n + 1 := ⟨count - 1, by omega⟩
    obtain ⟨first, item, hhead, hitem, htaken, hleft⟩ :=
      hlinks.cut (f := follow H.next) (fun _ => rfl) (fun _ _ => rfl) hlt
    rw [MsMessageBlockQueue.getCount, if_neg (by omega), hhead, Option.bind_some,
      if_pos (by omega), Nat.add_sub_cancel, hitem]
    refine ⟨_, _, _, rfl, htaken, hleft, ?_⟩
    show Q.listSize - (n + 1) = _
    rw [hsize, List.length_drop]
  · obtain ⟨first, l, rfl⟩ := List.exists_cons_of_ne_nil hne
    have hfirst : Q.links.head = some first := hlinks.head_eq
    rw [MsMessageBlockQueue.getCount, if_neg (by omega), hfirst, Option.bind_some,
      if_neg (by omega), List.take_of_length_le (by omega), List.drop_of_length_le (by omega)]
    refine ⟨first, _, H.next, rfl, ?_, rep_empty⟩
    rw [← hfirst]
    exact hlinks.1

/-! ### The queue of the app workers -/

/-- `ms::MsMessageUnsafeQueue`. -/
structure MsMessageUnsafeQueue where
  links : Links Addr
  totalSize : ℕ

namespace MsMessageUnsafeQueue

/-- `MsMessageUnsafeQueue::MsMessageUnsafeQueue()`. -/
def empty : MsMessageUnsafeQueue := ⟨Links.empty, 0⟩

/-- `get()`. -/
def get (Q : MsMessageUnsafeQueue) (H : Heap) : Option Addr × MsMessageUnsafeQueue :=
  match Q.links.head with
  | none => (none, Q)
  | some v =>
    let head := H.next v
    (some v, ⟨⟨head, if head = none then none else Q.links.tail⟩, Q.totalSize - 1⟩)

/-- `put(msg)`; the link of `msg` is not cleared. -/
def put (Q : MsMessageUnsafeQueue) (v : Addr) (H : Heap) : MsMessageUnsafeQueue × Heap :=
  let r := Q.links.attach H.next v v
  (⟨r.2, Q.totalSize + 1⟩, { H with next := r.1 })

end MsMessageUnsafeQueue

/-- `ms::MsMessagePriorityQueue`, one queue for each priority; its mutex
makes each member atomic. -/
structure MsMessagePriorityQueue where
  priQueue : List MsMessageUnsafeQueue
  totalSize : ℕ

namespace MsMessagePriorityQueue

/-- `init(priority_num)`. -/
def init (priorityNum : ℕ) : MsMessagePriorityQueue :=
  ⟨List.replicate priorityNum MsMessageUnsafeQueue.empty, 0⟩

/-- `_get()`: the first message of the first queue that has one. -/
def getFirst (H : Heap) : List MsMessageUnsafeQueue → Option Addr × List MsMessageUnsafeQueue
  | [] => (none, [])
  | Q :: Qs =>
    if Q.totalSize > 0 then ((Q.get H).1, (Q.get H).2 :: Qs)
    else ((getFirst H Qs).1, Q :: (getFirst H Qs).2)

/-- `get()`.  It blocks on an empty queue. -/
def get (Q : MsMessagePriorityQueue) (H : Heap) : Option (Addr × MsMessagePriorityQueue × Heap) :=
  if Q.totalSize = 0 then none
  else
    let r := getFirst H Q.priQueue
    r.1.map fun v => (v, ⟨r.2, Q.totalSize - 1⟩, H.setNext v none)

/-- `put(msg, priority)`: a priority out of range drops the message. -/
def put (Q : MsMessagePriorityQueue) (v : Addr) (priority : ℕ) (H : Heap) :
    MsMessagePriorityQueue × Heap :=
  match Q.priQueue[priority]? with
  | none => (Q, H)
  | some queue =>
    let r := queue.put v H
    (⟨Q.priQueue.set priority r.1, Q.totalSize + 1⟩, r.2)

end MsMessagePriorityQueue

/-! ### The dispatcher -/

/-- Overwrite the message at `v`. -/
def Heap.setMsg (H : Heap) (v : Addr) (msg : IMessage) : Heap :=
  { H with msg := Function.update H.msg v msg }

theorem Heap.setMsg_cases (H : Heap) (v a : Addr) (msg : IMessage) :
    (H.setMsg v msg).msg a = H.msg a ∨ (a = v ∧ (H.setMsg v msg).msg a = msg) := by
  rcases eq_or_ne a v with rfl | hne
  · exact Or.inr ⟨rfl, Function.update_self ..⟩
  · exact Or.inl (Function.update_of_ne hne ..)

/-- The queues between the IO threads and the workers. -/
structure ImMessageDispatcher where
  authWorkers : MsMessageBlockQueue
  appWorkers : MsMessagePriorityQueue

namespace ImMessageDispatcher

/-- The dispatcher at the start; the app workers know two priorities. -/
def new : ImMessageDispatcher := ⟨MsMessageBlockQueue.empty, MsMessagePriorityQueue.init 2⟩

/-- `process(msg)`. -/
def process (D : ImMessageDispatcher) (v : Addr) (H : Heap) : ImMessageDispatcher × Heap :=
  let msg := H.msg v
  if msg.state = INIT_STATE ∨ msg.state = AUTH_STATE then
    -- the first pack of a connection has to be an IM_AUTH pack
    let H := H.setMsg v { msg with state := AUTH_STATE, priority := 0 }
    let r := D.authWorkers.put v H
    ({ D with authWorkers := r.1 }, r.2)
  else
    let H := H.setMsg v { msg with priority := 1 }
    let r := D.appWorkers.put v 1 H
    ({ D with appWorkers := r.1 }, r.2)

end ImMessageDispatcher

/-! ### The processors -/

/-- A call a thread makes for a message it holds. -/
inductive Effect
  /-- `ImUserMessageRouter::update(msg)`, with the channel of the message -/
  | update (channel : IoChannel)
  /-- `ImUserMessageRouter::routeBack(msg)` -/
  | routeBack (v : Addr)
  /-- `RouteInfoPublisher::publishRouteInfo(uid, instance)` -/
  | publish (uid : ℤ)
  /-- `MessageBroker::dispatch(msg)` -/
  | dispatch (v : Addr)
  /-- `releaseIMessage(msg)` -/
  | release (v : Addr)
  /-- `MsMessageCollector::collect(msg)` -/
  | collect (v : Addr)
  /-- The last loop of `ImPendingMessageCollectorCore::collect` -/
  | releaseList (v : Addr)

/-- `processErrorPack(msg)` of both processors, up to `routeBack`: the reply
that closes the connection. -/
def processErrorPack (msg : IMessage) : IMessage :=
  { msg with needCollect := false, forcePush := true, closeConn := true }

/-- What a processor leaves in memory, and what it calls. -/
structure Processed where
  heap : Heap
  effects : List Effect

/-- The pack is refused, and the connection kicked. -/
def Processed.error (v : Addr) (H : Heap) : Processed where
  heap := H.setMsg v (processErrorPack (H.msg v))
  effects := [.routeBack v]

namespace ImMessageAuthProcessor

open ImMessageParser

/-- `auth(pack)`: any user with any token. -/
def auth (pack : IMessagePack) : ℤ :=
  if getAuthPackUid pack = -1 then -1
  else if getAuthPackToken pack = [] then -1
  else 0

/-- `processAuthPack(pack)` at time `now`: the reply of an accepted pack. -/
def processAuthPack (C : Codec) (now : ℤ) (pack : IMessagePack) : Option IMessage :=
  if checkTimeStamp pack = -1 then none
  else if pack.msg.state ≠ AUTH_STATE then none
  else if auth pack = 0 then
    let msg := createAuthPack C now (getAuthPackUid pack) pack
    -- the connection changes its state when the reply is pushed to it
    some { msg with state := MSG_STATE, switchState := true }
  else none

/-- The reply to a message that `process` accepts. -/
def accept (C : Codec) (now : ℤ) (msg : IMessage) : Option IMessage :=
  match parse C msg with
  | none => none
  | some pack =>
    match getMessagePackType pack with
    | .auth => processAuthPack C now pack
    | _ => none

/-- `process(msg)`. -/
def process (C : Codec) (host : ℕ) (now : ℤ) (v : Addr) (H : Heap) : Processed :=
  match accept C now (H.msg v) with
  | none => Processed.error v H
  | some msg =>
    -- no other thread has the message before `routeBack`, so the channel can be
    -- taken from it now
    { heap := H.setMsg v msg
      effects := [.update (ImUserMessageRouter.channelOf host msg), .routeBack v,
        .publish msg.uid] }

end ImMessageAuthProcessor

namespace ImMessageProcessor

open ImMessageParser

/-- The checks with which all three handlers begin. -/
def refused (pack : IMessagePack) : Bool :=
  checkTimeStamp pack = -1 || pack.msg.state ≠ MSG_STATE

/-- `processTouchPack(pack)` at time `now`. -/
def processTouchPack (C : Codec) (host : ℕ) (now : ℤ) (pack : IMessagePack) (v : Addr)
    (H : Heap) : Option Processed :=
  if refused pack then none
  else
    let uid := getTouchPackUid pack
    if uid = -1 then none
    else
      -- the user is the one the pack names, whoever has authenticated
      let msg := createTouchAckPack C now uid pack
      some ⟨H.setMsg v msg, [.update (ImUserMessageRouter.channelOf host msg), .routeBack v]⟩

/-- `processMsgPack(pack)` at time `now`, with the message id `mid`.  `ret` is
whether the broker could be reached, `collects` whether the processor has
been given a collector. -/
def processMsgPack (C : Codec) (now : ℤ) (mid : List UInt8) (ret collects : Bool)
    (pack : IMessagePack) (v : Addr) (H : Heap) : Option Processed :=
  if refused pack then none
  else
    let uid := getMsgPackUser pack
    if uid = -1 then none
    else if getMsgPackTargetUserCount pack ≤ 0 then none
    else
      let r := createMsgAckPack C now pack uid mid
      -- the ack is a message of its own, in fresh memory
      let ack := H.brk
      let H := { H.setMsg ack r.2 with next := Function.update H.next ack none, brk := H.brk + 1 }
      some ⟨H.setMsg v { r.1 with uid := uid, id := mid },
        [.routeBack ack, .dispatch v, if !ret && collects then .collect v else .release v]⟩

/-- `processAuthPack(pack)` at time `now`: authenticating again is answered
and otherwise ignored. -/
def processAuthPack (C : Codec) (now : ℤ) (pack : IMessagePack) (v : Addr) (H : Heap) :
    Option Processed :=
  if refused pack then none
  else
    let uid := getAuthPackUid pack
    if uid = -1 then none
    else some ⟨H.setMsg v (createAuthPack C now uid pack), [.routeBack v]⟩

/-- The part of `process` that depends on the type of the pack; `none` for a
message that is kicked. -/
def handle (C : Codec) (host : ℕ) (now : ℤ) (mid : List UInt8) (ret collects : Bool) (v : Addr)
    (H : Heap) : Option Processed :=
  match parse C (H.msg v) with
  | none => none
  | some pack =>
    match getMessagePackType pack with
    | .msg => processMsgPack C now mid ret collects pack v H
    | .touch => processTouchPack C host now pack v H
    | .auth => processAuthPack C now pack v H
    | _ => none

/-- `process(msg)`. -/
def process (C : Codec) (host : ℕ) (now : ℤ) (mid : List UInt8) (ret collects : Bool) (v : Addr)
    (H : Heap) : Processed :=
  (handle C host now mid ret collects v H).getD (Processed.error v H)

end ImMessageProcessor

/-! ### What the processors accept -/

/-- The bytes are an IM_AUTH pack of the user `uid`, who is not -1, with a
token that is not empty. -/
def IsAuthPack (C : Codec) (uid : ℤ) (data : List UInt8) : Prop :=
  ∃ pack req token, C.parse data = some pack ∧ pack.type = some .auth ∧
    (pack.content.getD {}).authReq = some req ∧ req.uid = some uid ∧ req.token = some token ∧
    uid ≠ -1 ∧ token ≠ []

open ImMessageParser

/-- `auth` accepts a pack with a user and a token. -/
theorem auth_eq_zero {pack : IMessagePack} (h : ImMessageAuthProcessor.auth pack = 0) :
    ∃ req token, pack.content.authReq = some req ∧ req.uid = some (getAuthPackUid pack) ∧
      req.token = some token ∧ getAuthPackUid pack ≠ -1 ∧ token ≠ [] := by
  unfold ImMessageAuthProcessor.auth at h
  split at h
  · cases h
  · rename_i huid
    split at h
    · cases h
    · rename_i htoken
      unfold getAuthPackToken at htoken
      unfold getAuthPackUid at huid ⊢
      rcases hreq : pack.content.authReq with - | req
      · rw [hreq] at huid
        exact absurd rfl huid
      · rw [hreq] at huid htoken
        rcases hu : req.uid with - | uid
        · rw [Option.bind_some, hu] at huid
          exact absurd rfl huid
        · rcases ht : req.token with - | token
          · rw [Option.bind_some, ht] at htoken
            exact absurd rfl htoken
          · rw [Option.bind_some, hu] at huid
            rw [Option.bind_some, ht] at htoken
            refine ⟨req, token, rfl, ?_, ht, ?_, htoken⟩
            · rw [Option.bind_some, hu]
              rfl
            · rw [Option.bind_some, hu]
              exact huid

/-- **What the auth processor accepts**: an IM_AUTH pack, in a message of a
connection that has not authenticated.  The reply goes to the same
connection. -/
theorem ImMessageAuthProcessor.accept_some {C : Codec} {now : ℤ} {msg reply : IMessage}
    (h : ImMessageAuthProcessor.accept C now msg = some reply) :
    msg.state = AUTH_STATE ∧ IsAuthPack C reply.uid msg.data ∧ reply.conn = msg.conn := by
  unfold ImMessageAuthProcessor.accept at h
  split at h
  · cases h
  · rename_i pack hparse
    obtain ⟨hmsg, hdata⟩ := parse_some hparse
    split at h
    · rename_i htype
      unfold ImMessageAuthProcessor.processAuthPack at h
      split at h
      · cases h
      · split at h
        · cases h
        · rename_i hstate
          split at h
          · rename_i hauth
            obtain rfl := Option.some.inj h
            obtain ⟨req, token, hreq, huid, htoken, hne, hnil⟩ := auth_eq_zero hauth
            have htype' : pack.data.type = some .auth := by
              unfold getMessagePackType at htype
              split at htype <;> first | assumption | cases htype
            refine ⟨hmsg ▸ not_not.mp hstate,
              ⟨pack.data, req, token, hdata, htype', hreq, huid, htoken, hne, hnil⟩, ?_⟩
            rw [← hmsg]
            exact (reply_sameRoute C (getAuthPackUid pack) _ pack.msg).conn
          · cases h
    · cases h

/-- A message on its way to a connection, without a change of its state. -/
def ToConn (conn : ℕ) (H H' : Heap) : Prop :=
  ∀ a, H'.msg a = H.msg a ∨ (H'.msg a).conn = conn

theorem ToConn.setMsg {conn : ℕ} {H H' : Heap} {v : Addr} {msg : IMessage} (h : ToConn conn H H')
    (hmsg : msg.conn = conn) : ToConn conn H (H'.setMsg v msg) := by
  intro a
  rcases H'.setMsg_cases v a msg with hsame | ⟨-, hnew⟩
  · rw [hsame]
    exact h a
  · rw [hnew]
    exact Or.inr hmsg

namespace ImMessageProcessor

/-- What it means that the message at `v` was accepted: its connection had
authenticated, what is written goes to the same connection, and so does the
channel that is registered. -/
structure Replies (v : Addr) (H : Heap) (r : Processed) : Prop where
  state : (H.msg v).state = MSG_STATE
  heap : ToConn (H.msg v).conn H r.heap
  update : ∀ ch, .update ch ∈ r.effects → ch.conn = (H.msg v).conn

section Replies

variable {C : Codec} {host : ℕ} {now : ℤ} {mid : List UInt8} {ret collects : Bool}
  {pack : IMessagePack} {v : Addr} {H : Heap} {r : Processed}

theorem state_of_not_refused (hmsg : pack.msg = H.msg v) (h : ¬ refused pack = true) :
    (H.msg v).state = MSG_STATE := by
  by_contra hne
  refine h ?_
  rw [refused, hmsg, decide_eq_true hne, Bool.or_true]

theorem toConn_reply (hmsg : pack.msg = H.msg v) (uid : ℤ) (data : ImPack) :
    ToConn (H.msg v).conn H (H.setMsg v (reply C uid data pack.msg)) := by
  refine ToConn.setMsg (fun _ => Or.inl rfl) ?_
  rw [(reply_sameRoute C uid data pack.msg).conn, hmsg]

theorem processTouchPack_replies (hmsg : pack.msg = H.msg v)
    (h : processTouchPack C host now pack v H = some r) : Replies v H r := by
  unfold processTouchPack at h
  split at h
  · cases h
  · rename_i hok
    dsimp only at h
    split at h
    · cases h
    · obtain rfl := Option.some.inj h
      refine ⟨state_of_not_refused hmsg hok, toConn_reply hmsg _ _, ?_⟩
      intro ch hch
      simp only [List.mem_cons, Effect.update.injEq, reduceCtorEq, List.not_mem_nil,
        or_false] at hch
      rw [hch, ← hmsg]
      exact (reply_sameRoute C (getTouchPackUid pack) _ pack.msg).conn

theorem processMsgPack_replies (hmsg : pack.msg = H.msg v)
    (h : processMsgPack C now mid ret collects pack v H = some r) : Replies v H r := by
  unfold processMsgPack at h
  split at h
  · cases h
  · rename_i hok
    dsimp only at h
    split at h
    · cases h
    · split at h
      · cases h
      · obtain rfl := Option.some.inj h
        obtain ⟨hreq, hack, -⟩ := createMsgAckPack_sameRoute C now pack (getMsgPackUser pack) mid
        rw [hmsg] at hreq hack
        have hwritten : ToConn (H.msg v).conn H (H.setMsg H.brk _) :=
          ToConn.setMsg (fun _ => Or.inl rfl) hack
        refine ⟨state_of_not_refused hmsg hok, hwritten.setMsg hreq.conn, ?_⟩
        intro ch hch
        simp only [List.mem_cons, reduceCtorEq, false_or, List.not_mem_nil, or_false] at hch
        split at hch <;> cases hch

theorem processAuthPack_replies (hmsg : pack.msg = H.msg v)
    (h : processAuthPack C now pack v H = some r) : Replies v H r := by
  unfold processAuthPack at h
  split at h
  · cases h
  · rename_i hok
    dsimp only at h
    split at h
    · cases h
    · obtain rfl := Option.some.inj h
      refine ⟨state_of_not_refused hmsg hok, toConn_reply hmsg _ _, ?_⟩
      intro ch hch
      cases List.mem_singleton.mp hch

/-- **What the message processor accepts.** -/
theorem handle_replies (h : handle C host now mid ret collects v H = some r) :
    Replies v H r := by
  unfold handle at h
  split at h
  · cases h
  · rename_i pack hparse
    have hmsg := (parse_some hparse).1
    split at h
    · exact processMsgPack_replies hmsg h
    · exact processTouchPack_replies hmsg h
    · exact processAuthPack_replies hmsg h
    · cases h

end Replies

end ImMessageProcessor

/-! ### Queues do not write messages -/

theorem MsMessageBlockQueue.getCount_msg {Q Q' : MsMessageBlockQueue} {count : ℕ} {H H' : Heap}
    {v : Addr} (h : Q.getCount count H = some (v, Q', H')) : H'.msg = H.msg := by
  unfold MsMessageBlockQueue.getCount at h
  split at h
  · cases h
  · obtain ⟨head, -, h⟩ := Option.bind_eq_some_iff.mp h
    split at h
    · obtain ⟨item, -, h⟩ := Option.map_eq_some_iff.mp h
      obtain ⟨-, -, rfl⟩ := h
      rfl
    · obtain ⟨-, -, rfl⟩ := Option.some.inj h
      rfl

theorem MsMessagePriorityQueue.get_msg {Q Q' : MsMessagePriorityQueue} {H H' : Heap} {v : Addr}
    (h : Q.get H = some (v, Q', H')) : H'.msg = H.msg := by
  unfold MsMessagePriorityQueue.get at h
  split at h
  · cases h
  · obtain ⟨head, -, h⟩ := Option.map_eq_some_iff.mp h
    obtain ⟨-, -, rfl⟩ := h
    rfl

theorem MsMessagePriorityQueue.put_msg (Q : MsMessagePriorityQueue) (v : Addr) (priority : ℕ)
    (H : Heap) : (Q.put v priority H).2.msg = H.msg := by
  unfold MsMessagePriorityQueue.put
  split <;> rfl

/-- **What the dispatcher does to a message**: it sets its priority, and the
state of a first message. -/
theorem ImMessageDispatcher.process_msg (D : ImMessageDispatcher) (v a : Addr) (H : Heap) :
    (D.process v H).2.msg a = H.msg a ∨
      (a = v ∧ ((D.process v H).2.msg a = { H.msg v with state := AUTH_STATE, priority := 0 } ∨
        (D.process v H).2.msg a = { H.msg v with priority := 1 })) := by
  unfold ImMessageDispatcher.process
  dsimp only
  split
  · exact (H.setMsg_cases v a _).imp id fun h => ⟨h.1, Or.inl h.2⟩
  · rw [MsMessagePriorityQueue.put_msg]
    exact (H.setMsg_cases v a _).imp id fun h => ⟨h.1, Or.inr h.2⟩

end Xkim
