/-
MsgHandler/UserRouter.lean

Where the messages of a user go: `im::ImUserChannelRegisterTableLocal`,
`im::ImUserMessageRouter` and `im::ImPendingMessageCollectorCore`.

The register table maps a user to the channel (IO thread and connection) on
which the user was last seen.  `update` writes it, without looking at what it
holds.  The messages a closed connection has not written come back, grouped
by user, to `collect`: if the user is registered on a newer connection
`failureRoute` hands them to the local router again, otherwise it forgets the
registration.  Its return value says -1 in both cases, and on -1 `collect`
releases the messages.

Two results follow from that.  A list of messages is disposed of in one way
exactly when there is no newer registration (`collect_single_owner_iff`), and
registrations never go back to an older connection exactly when the updates
come in the order of the connections (`update_never_back_iff`).
-/
import MsgHandler.Heap

namespace Xkim

/-! ### The register table -/

/-- `io::IoChannel`. -/
structure IoChannel where
  uid : ℤ
  io : ℤ
  conn : ℕ
  host : ℕ
  deriving DecidableEq, Repr

/-- A channel variable of which only `_uid` has been assigned: the answer of
a look-up that finds nothing. -/
def IoChannel.none : IoChannel := ⟨-1, 0, 0, 0⟩

/-- `im::ImUserChannelRegisterTableLocal`; its mutex makes each member
atomic. -/
structure ImUserChannelRegisterTableLocal where
  map : ℤ → Option IoChannel

namespace ImUserChannelRegisterTableLocal

/-- The table at the start. -/
def empty : ImUserChannelRegisterTableLocal := ⟨fun _ => Option.none⟩

/-- `set(key, channel)`. -/
def set (T : ImUserChannelRegisterTableLocal) (key : ℤ) (channel : IoChannel) :
    ImUserChannelRegisterTableLocal :=
  ⟨Function.update T.map key (some channel)⟩

/-- `unset(key)`. -/
def unset (T : ImUserChannelRegisterTableLocal) (key : ℤ) : ImUserChannelRegisterTableLocal :=
  ⟨Function.update T.map key Option.none⟩

/-- `getOrUnset(key, conn, channel)`: the channel of `key` if it is newer
than `conn`; an older one is erased. -/
def getOrUnset (T : ImUserChannelRegisterTableLocal) (key : ℤ) (conn : ℕ) :
    IoChannel × ImUserChannelRegisterTableLocal :=
  match T.map key with
  | some channel =>
    if conn ≥ channel.conn then (IoChannel.none, T.unset key) else (channel, T)
  | Option.none => (IoChannel.none, T)

/-- The channel under which messages up to connection `conn` of `key` can be
routed again. -/
def Newer (T : ImUserChannelRegisterTableLocal) (key : ℤ) (conn : ℕ) (ch : IoChannel) : Prop :=
  T.map key = some ch ∧ ch.uid ≠ -1 ∧ conn < ch.conn

variable {T : ImUserChannelRegisterTableLocal} {key : ℤ} {conn : ℕ} {ch : IoChannel}

theorem getOrUnset_of_newer (h : T.Newer key conn ch) : T.getOrUnset key conn = (ch, T) := by
  obtain ⟨hmap, -, hlt⟩ := h
  unfold getOrUnset
  rw [hmap]
  exact if_neg (not_le.mpr hlt)

theorem getOrUnset_of_not_newer (h : ¬ ∃ ch, T.Newer key conn ch) :
    (T.getOrUnset key conn).1.uid = -1 := by
  unfold getOrUnset
  rcases hmap : T.map key with - | ch
  · rfl
  · dsimp only
    split
    · rfl
    · rename_i hle
      by_contra huid
      exact h ⟨ch, hmap, huid, not_le.mp hle⟩

/-- A channel that is found is registered. -/
theorem getOrUnset_found (h : (T.getOrUnset key conn).1.uid ≠ -1) :
    T.map key = some (T.getOrUnset key conn).1 := by
  unfold getOrUnset at h ⊢
  rcases hmap : T.map key with - | old
  · rw [hmap] at h
    exact absurd rfl h
  · rw [hmap] at h
    dsimp only at h ⊢
    split
    · rename_i hle
      rw [if_pos hle] at h
      exact absurd rfl h
    · rfl

/-- A look-up erases the registration of its user if it is not newer. -/
theorem getOrUnset_map {uid : ℤ} :
    (T.getOrUnset key conn).2.map uid = some ch ↔
      T.map uid = some ch ∧ ¬ (key = uid ∧ ch.conn ≤ conn) := by
  unfold getOrUnset
  rcases hmap : T.map key with - | old
  · refine ⟨fun h => ⟨h, ?_⟩, fun h => h.1⟩
    rintro ⟨rfl, -⟩
    rw [hmap] at h
    cases h
  · dsimp only
    split
    · rename_i hle
      rcases eq_or_ne uid key with rfl | hne
      · have hgone : (T.unset uid).map uid = Option.none := Function.update_self ..
        rw [hgone]
        refine ⟨(fun h => nomatch h), ?_⟩
        rintro ⟨h, hno⟩
        rw [Option.some.inj (hmap.symm.trans h)] at hle
        exact absurd ⟨rfl, hle⟩ hno
      · have hkeep : (T.unset key).map uid = T.map uid := Function.update_of_ne hne ..
        rw [hkeep]
        exact ⟨fun h => ⟨h, fun hk => hne hk.1.symm⟩, fun h => h.1⟩
    · rename_i hlt
      refine ⟨fun h => ⟨h, ?_⟩, fun h => h.1⟩
      rintro ⟨rfl, hle⟩
      rw [Option.some.inj (hmap.symm.trans h)] at hlt
      exact hlt hle

end ImUserChannelRegisterTableLocal

/-! ### Messages in memory -/

/-- `item->_io = io; item->_conn = conn;` with an `int` connection. -/
def IMessage.setChannel (io conn : ℤ) (m : IMessage) : IMessage :=
  { m with io := io, conn := toUInt64 conn }

@[simp] theorem IMessage.setChannel_conn (m : IMessage) (io conn : ℤ) :
    (m.setChannel io conn).conn = toUInt64 conn := rfl

namespace Heap

/-- The messages found by following `_next` from `v`. -/
def chainFrom (H : Heap) (v : Addr) : List Addr := walk H.next H.brk (some v)

/-- The same for a message in memory. -/
def setChannel (io conn : ℤ) (H : Heap) (item : Addr) : Heap :=
  { H with msg := Function.update H.msg item ((H.msg item).setChannel io conn) }

variable {H : Heap}

theorem chainFrom_eq {v : Addr} {l : List Addr} (h : Chain H.next (some v) l)
    (hbound : ∀ a ∈ l, a < H.brk) : H.chainFrom v = l :=
  Chain.walk_eq h (length_le_of_nodup_lt (Chain.nodup h) hbound)

/-- Giving every message of a list a channel changes nothing else. -/
theorem foldl_setChannel (io conn : ℤ) (l : List Addr) (H : Heap) :
    l.foldl (setChannel io conn) H =
      { H with msg := fun a => if a ∈ l then (H.msg a).setChannel io conn else H.msg a } := by
  induction l generalizing H with
  | nil => simp
  | cons b l ih =>
    rw [List.foldl_cons, ih]
    simp only [setChannel, List.mem_cons]
    congr 1
    funext a
    rcases eq_or_ne a b with rfl | hab
    · by_cases hl : a ∈ l <;> simp [hl, IMessage.setChannel]
    · simp [hab]

theorem foldl_releaseIMessage (l : List Addr) (H : Heap) :
    l.foldl releaseIMessage H = { H with released := H.released ++ l } := by
  induction l generalizing H with
  | nil => simp
  | cons a l ih =>
    rw [List.foldl_cons, ih]
    simp [releaseIMessage]

end Heap

/-! ### The router -/

/-- `im::ImUserMessageRouter`, with the queue of its local router. -/
structure ImUserMessageRouter where
  registerTableLocal : ImUserChannelRegisterTableLocal
  localQueue : MsMessageBlockQueue

namespace ImUserMessageRouter

/-- `routeBack(msg)`, that is `MsMessageRouterLocal::route`. -/
def routeBack (R : ImUserMessageRouter) (msg : Addr) (H : Heap) : ImUserMessageRouter × Heap :=
  let r := R.localQueue.putList msg H
  ({ R with localQueue := r.1 }, r.2)

/-- `failureRoute(uid, maxConn, msg)`: the connection passes through an
`int`, and -1 is returned on either path. -/
def failureRoute (R : ImUserMessageRouter) (uid : ℤ) (maxConn : ℕ) (msg : Addr) (H : Heap) :
    ℤ × ImUserMessageRouter × Heap :=
  let r := R.registerTableLocal.getOrUnset uid maxConn
  let channel := r.1
  let R := { R with registerTableLocal := r.2 }
  if channel.uid ≠ -1 then
    -- the list is queued again, and -1 returned all the same
    let newIo := channel.io
    let newConn := toInt32 channel.conn
    (-1, R.routeBack msg ((H.chainFrom msg).foldl (Heap.setChannel newIo newConn) H))
  else (-1, R, H)

/-- The channel `update` registers for a message. -/
def channelOf (host : ℕ) (msg : IMessage) : IoChannel := ⟨msg.uid, msg.io, msg.conn, host⟩

/-- `update(msg)`. -/
def update (host : ℕ) (msg : IMessage) (R : ImUserMessageRouter) : ImUserMessageRouter :=
  { R with registerTableLocal := R.registerTableLocal.set msg.uid (channelOf host msg) }

end ImUserMessageRouter

/-! ### The collector's core -/

/-- `max_item` of a list that starts with `v`: the first of the messages on
the newest connection. -/
def maxItem (H : Heap) (v : Addr) (l : List Addr) : Addr :=
  l.foldl (fun m item => if (H.msg item).conn > (H.msg m).conn then item else m) v

theorem maxItem_spec (H : Heap) (v : Addr) (l : List Addr) :
    maxItem H v l ∈ v :: l ∧ ∀ a ∈ v :: l, (H.msg a).conn ≤ (H.msg (maxItem H v l)).conn := by
  induction l generalizing v with
  | nil => exact ⟨List.mem_cons_self, fun a ha => by rw [List.mem_singleton.mp ha]; rfl⟩
  | cons b l ih =>
    have hstep : maxItem H v (b :: l) =
        maxItem H (if (H.msg b).conn > (H.msg v).conn then b else v) l := rfl
    rw [hstep]
    split
    · rename_i hlt
      obtain ⟨hmem, hle⟩ := ih b
      refine ⟨List.mem_cons_of_mem _ hmem, ?_⟩
      intro a ha
      rcases List.mem_cons.mp ha with rfl | ha
      · exact hlt.le.trans (hle b List.mem_cons_self)
      · exact hle a ha
    · rename_i hle'
      obtain ⟨hmem, hle⟩ := ih v
      refine ⟨?_, ?_⟩
      · exact List.mem_cons.mpr ((List.mem_cons.mp hmem).imp_right (List.mem_cons_of_mem _))
      · intro a ha
        rcases List.mem_cons.mp ha with rfl | ha
        · exact hle a List.mem_cons_self
        · rcases List.mem_cons.mp ha with rfl | ha
          · exact (not_lt.mp hle').trans (hle v List.mem_cons_self)
          · exact hle a (List.mem_cons_of_mem _ ha)

/-- `ImPendingMessageCollectorCore::collect(msg)`. -/
def ImPendingMessageCollectorCore.collect (R : ImUserMessageRouter) (msg : Addr) (H : Heap) :
    ImUserMessageRouter × Heap :=
  let max := maxItem H msg (H.chainFrom msg).tail
  let r := R.failureRoute (H.msg msg).uid (H.msg max).conn msg H
  -- not routed: the messages are dropped
  if r.1 = -1 then (r.2.1, (r.2.2.chainFrom msg).foldl Heap.releaseIMessage r.2.2)
  else r.2

/-- `failureRoute` up to `route`: the look-up, and the new channel of the
messages. -/
def ImUserMessageRouter.lookUp (R : ImUserMessageRouter) (uid : ℤ) (maxConn : ℕ) (msg : Addr)
    (H : Heap) : IoChannel × ImUserMessageRouter × Heap :=
  let r := R.registerTableLocal.getOrUnset uid maxConn
  (r.1, { R with registerTableLocal := r.2 },
    if r.1.uid ≠ -1 then (H.chainFrom msg).foldl (Heap.setChannel r.1.io (toInt32 r.1.conn)) H
    else H)

theorem failureRoute_eq (R : ImUserMessageRouter) (uid : ℤ) (maxConn : ℕ) (msg : Addr) (H : Heap) :
    R.failureRoute uid maxConn msg H =
      (-1, if (R.lookUp uid maxConn msg H).1.uid ≠ -1 then
        (R.lookUp uid maxConn msg H).2.1.routeBack msg (R.lookUp uid maxConn msg H).2.2
      else (R.lookUp uid maxConn msg H).2) := by
  unfold ImUserMessageRouter.failureRoute ImUserMessageRouter.lookUp
  dsimp only
  split <;> rfl

/-- What is written when a list of any shape is routed again: messages get
the channel registered for the user, and registrations are only erased. -/
structure Rerouted (R R' : ImUserMessageRouter) (H H' : Heap) (uid : ℤ) : Prop where
  msg : ∀ a, H'.msg a = H.msg a ∨ ∃ ch, R.registerTableLocal.map uid = some ch ∧
    H'.msg a = (H.msg a).setChannel ch.io (toInt32 ch.conn)
  table : ∀ u ch, R'.registerTableLocal.map u = some ch → R.registerTableLocal.map u = some ch

theorem lookUp_rerouted (R : ImUserMessageRouter) (uid : ℤ) (maxConn : ℕ) (v : Addr) (H : Heap) :
    Rerouted R (R.lookUp uid maxConn v H).2.1 H (R.lookUp uid maxConn v H).2.2 uid := by
  have hless : ∀ u ch, (R.registerTableLocal.getOrUnset uid maxConn).2.map u = some ch →
      R.registerTableLocal.map u = some ch :=
    fun u ch h => (ImUserChannelRegisterTableLocal.getOrUnset_map.mp h).1
  refine ⟨fun a => ?_, hless⟩
  unfold ImUserMessageRouter.lookUp
  dsimp only
  split
  · rename_i hfound
    have hmsg := congrArg (fun H => H.msg a) (Heap.foldl_setChannel
      (R.registerTableLocal.getOrUnset uid maxConn).1.io
      (toInt32 (R.registerTableLocal.getOrUnset uid maxConn).1.conn) (H.chainFrom v) H)
    dsimp only at hmsg
    split at hmsg
    · exact Or.inr ⟨_, ImUserChannelRegisterTableLocal.getOrUnset_found hfound, hmsg⟩
    · exact Or.inl hmsg
  · exact Or.inl rfl

/-! ### What becomes of a list of messages -/

section Collect

variable {R : ImUserMessageRouter} {H : Heap} {v : Addr} {l q : List Addr}

/-- A list of messages that nobody else holds: it ends, lies in allocated
memory, and is not in the router's queue. -/
structure Collected (R : ImUserMessageRouter) (H : Heap) (v : Addr) (l q : List Addr) : Prop where
  chain : Chain H.next (some v) (v :: l)
  bound : ∀ a ∈ v :: l, a < H.brk
  queue : R.localQueue.Rep H q
  apart : ∀ a ∈ q, a ∉ v :: l

/-- The table has a channel newer than every message of the list. -/
theorem Collected.newer_iff {T : ImUserChannelRegisterTableLocal} {uid : ℤ} {ch : IoChannel} :
    T.Newer uid (H.msg (maxItem H v l)).conn ch ↔
      T.map uid = some ch ∧ ch.uid ≠ -1 ∧ ∀ a ∈ v :: l, (H.msg a).conn < ch.conn := by
  obtain ⟨hmem, hle⟩ := maxItem_spec H v l
  refine and_congr_right fun _ => and_congr_right fun _ => ⟨?_, fun h => h _ hmem⟩
  exact fun h a ha => (hle a ha).trans_lt h

/-- Routing a list keeps it linked: only the old end of the queue is
written. -/
theorem Collected.putList_chain (h : Collected R H v l q) :
    Chain (R.localQueue.putList v H).2.next (some v) (v :: l) :=
  h.chain.congr fun _ ha => Links.attach_of_not_mem h.queue.1 fun hq => h.apart _ hq ha

theorem Collected.setChannel (io conn : ℤ) (h : Collected R H v l q) :
    Collected R ((v :: l).foldl (Heap.setChannel io conn) H) v l q := by
  rw [Heap.foldl_setChannel]
  exact ⟨h.chain, h.bound, h.queue, h.apart⟩

/-- `failureRoute` returns -1, so `collect` releases what is still linked to
the first message. -/
theorem Collected.collect_eq {R' : ImUserMessageRouter} {H' : Heap} (h : Collected R H v l q)
    (hroute : R.failureRoute (H.msg v).uid (H.msg (maxItem H v l)).conn v H = (-1, R', H'))
    (hrest : H'.chainFrom v = v :: l) :
    ImPendingMessageCollectorCore.collect R v H =
      (R', { H' with released := H'.released ++ v :: l }) := by
  unfold ImPendingMessageCollectorCore.collect
  rw [Heap.chainFrom_eq h.chain h.bound, List.tail_cons]
  dsimp only
  rw [hroute, if_pos rfl, hrest, Heap.foldl_releaseIMessage]

/-- With a newer channel `failureRoute` routes the list there; it returns -1 all the
same. -/
theorem Collected.failureRoute_newer {ch : IoChannel} (h : Collected R H v l q)
    (hch : R.registerTableLocal.Newer (H.msg v).uid (H.msg (maxItem H v l)).conn ch) :
    R.failureRoute (H.msg v).uid (H.msg (maxItem H v l)).conn v H =
      (-1, R.routeBack v ((v :: l).foldl (Heap.setChannel ch.io (toInt32 ch.conn)) H)) := by
  unfold ImUserMessageRouter.failureRoute
  rw [ImUserChannelRegisterTableLocal.getOrUnset_of_newer hch, Heap.chainFrom_eq h.chain h.bound]
  exact if_pos hch.2.1

theorem Collected.failureRoute_not_newer (_ : Collected R H v l q)
    (hno : ¬ ∃ ch, R.registerTableLocal.Newer (H.msg v).uid (H.msg (maxItem H v l)).conn ch) :
    R.failureRoute (H.msg v).uid (H.msg (maxItem H v l)).conn v H =
      (-1, { R with registerTableLocal := (R.registerTableLocal.getOrUnset (H.msg v).uid
        (H.msg (maxItem H v l)).conn).2 }, H) :=
  if_neg (not_not.mpr (ImUserChannelRegisterTableLocal.getOrUnset_of_not_newer hno))

/-- With a newer channel the list is routed again, and released. -/
theorem Collected.collect_newer {ch : IoChannel} (h : Collected R H v l q)
    (hch : R.registerTableLocal.Newer (H.msg v).uid (H.msg (maxItem H v l)).conn ch) :
    (ImPendingMessageCollectorCore.collect R v H).1.localQueue.Rep
        (ImPendingMessageCollectorCore.collect R v H).2 (q ++ v :: l) ∧
      (ImPendingMessageCollectorCore.collect R v H).2.released = H.released ++ v :: l := by
  have hset := h.setChannel ch.io (toInt32 ch.conn)
  rw [h.collect_eq (h.failureRoute_newer hch) (Heap.chainFrom_eq hset.putList_chain hset.bound)]
  refine ⟨hset.queue.putList hset.chain hset.apart hset.bound, ?_⟩
  show ((v :: l).foldl (Heap.setChannel ch.io (toInt32 ch.conn)) H).released ++ v :: l = _
  rw [Heap.foldl_setChannel]

/-- Without one it is released. -/
theorem Collected.collect_not_newer (h : Collected R H v l q)
    (hno : ¬ ∃ ch, R.registerTableLocal.Newer (H.msg v).uid (H.msg (maxItem H v l)).conn ch) :
    (ImPendingMessageCollectorCore.collect R v H).1.localQueue.Rep
        (ImPendingMessageCollectorCore.collect R v H).2 q ∧
      (ImPendingMessageCollectorCore.collect R v H).2.released = H.released ++ v :: l := by
  rw [h.collect_eq (h.failureRoute_not_newer hno) (Heap.chainFrom_eq h.chain h.bound)]
  exact ⟨h.queue, rfl⟩

/-- **Who owns the messages that come back.**  `collect` either hands a list
of messages to the local router and releases none, or hands over none and
releases each once, if and only if the table has no channel for the user
that is newer than all of them.  If it has one, `collect` does both. -/
theorem collect_single_owner_iff (h : Collected R H v l q) :
    (v :: l).Nodup ∧
      ((((ImPendingMessageCollectorCore.collect R v H).1.localQueue.toList
            (ImPendingMessageCollectorCore.collect R v H).2 = q ++ v :: l ∧
          (ImPendingMessageCollectorCore.collect R v H).2.released = H.released) ∨
        ((ImPendingMessageCollectorCore.collect R v H).1.localQueue.toList
            (ImPendingMessageCollectorCore.collect R v H).2 = q ∧
          (ImPendingMessageCollectorCore.collect R v H).2.released = H.released ++ v :: l)) ↔
        ¬ ∃ ch, R.registerTableLocal.map (H.msg v).uid = some ch ∧ ch.uid ≠ -1 ∧
          ∀ a ∈ v :: l, (H.msg a).conn < ch.conn) := by
  refine ⟨Chain.nodup h.chain, ?_⟩
  simp only [← Collected.newer_iff]
  refine ⟨?_, fun hno => Or.inr ?_⟩
  · rintro hone ⟨ch, hch⟩
    obtain ⟨hqueue, hreleased⟩ := h.collect_newer hch
    rcases hone with ⟨-, hsame⟩ | ⟨hsame, -⟩
    · exact List.cons_ne_nil v l (List.append_right_eq_self.mp (hreleased.symm.trans hsame))
    · exact List.cons_ne_nil v l
        (List.append_right_eq_self.mp (hqueue.toList_eq.symm.trans hsame))
  · obtain ⟨hqueue, hreleased⟩ := h.collect_not_newer hno
    exact ⟨hqueue.toList_eq, hreleased⟩

/-- Two messages of user 7 on connections 1 and 2, the first linked to the
second. -/
def twoCollected : Heap :=
  { Heap.empty with
    msg := fun a => { createIMessage [] 0 with uid := 7, conn := a + 1 }
    next := fun a => if a = 0 then some 1 else none
    brk := 2 }

/-- A router that knows user 7 on connection `conn`. -/
def registeredOn (conn : ℕ) : ImUserMessageRouter where
  registerTableLocal := ImUserChannelRegisterTableLocal.empty.set 7 ⟨7, 0, conn, 0⟩
  localQueue := MsMessageBlockQueue.empty

theorem twoCollected_collected (conn : ℕ) :
    Collected (registeredOn conn) twoCollected 0 [1] [] :=
  ⟨⟨rfl, rfl, rfl⟩, (by decide), MsMessageBlockQueue.rep_empty, fun _ ha => nomatch ha⟩

/-- The user has not been seen since: the messages are released, and the
registration is forgotten. -/
theorem collect_single_owner_old :
    (ImPendingMessageCollectorCore.collect (registeredOn 2) 0 twoCollected).2.released = [0, 1] ∧
      (ImPendingMessageCollectorCore.collect (registeredOn 2) 0 twoCollected).1.localQueue.toList
        (ImPendingMessageCollectorCore.collect (registeredOn 2) 0 twoCollected).2 = [] := by
  have hold := (collect_single_owner_iff (twoCollected_collected 2)).2.mpr (by
    rintro ⟨ch, hch, -, hall⟩
    obtain rfl := Option.some.inj hch
    exact absurd (hall 1 (by decide)) (by decide))
  rcases hold with ⟨-, habs⟩ | ⟨hqueue, hreleased⟩
  · exact absurd habs (by decide)
  · exact ⟨hreleased, hqueue⟩

/-- The user is back on connection 3: the messages are in the router's queue
and have been released. -/
theorem collect_routes_and_releases :
    (ImPendingMessageCollectorCore.collect (registeredOn 3) 0 twoCollected).2.released = [0, 1] ∧
      (ImPendingMessageCollectorCore.collect (registeredOn 3) 0 twoCollected).1.localQueue.toList
        (ImPendingMessageCollectorCore.collect (registeredOn 3) 0 twoCollected).2 = [0, 1] := by
  decide

end Collect

/-! ### Registrations over time -/

/-- A call of the router that touches the table: a worker registers the
sender of a message, or the collector asks for a newer channel. -/
inductive RouterOp
  | update (msg : IMessage)
  | failureRoute (uid : ℤ) (maxConn : ℕ) (msg : Addr)

namespace RouterOp

/-- The router and the messages in memory after a call. -/
def apply (host : ℕ) (s : ImUserMessageRouter × Heap) : RouterOp → ImUserMessageRouter × Heap
  | .update msg => (s.1.update host msg, s.2)
  | .failureRoute uid maxConn msg => (s.1.failureRoute uid maxConn msg s.2).2

/-- After a sequence of calls, in the order in which the threads make them. -/
def run (host : ℕ) (s : ImUserMessageRouter × Heap) (ops : List RouterOp) :
    ImUserMessageRouter × Heap :=
  ops.foldl (apply host) s

/-- The call registers a channel for `uid`. -/
def Updates (uid : ℤ) (op : RouterOp) : Prop := ∃ msg, op = .update msg ∧ msg.uid = uid

/-- The call erases a registration of `uid` on connection `conn`. -/
def Forgets (uid : ℤ) (conn : ℕ) (op : RouterOp) : Prop :=
  ∃ maxConn msg, op = .failureRoute uid maxConn msg ∧ conn ≤ maxConn

/-- The channel registered for `uid`. -/
def registered (uid : ℤ) (s : ImUserMessageRouter × Heap) : Option IoChannel :=
  s.1.registerTableLocal.map uid

variable {host : ℕ} {uid : ℤ} {s : ImUserMessageRouter × Heap} {op : RouterOp} {ch : IoChannel}

theorem run_append (ops : List RouterOp) :
    run host s (ops ++ [op]) = apply host (run host s ops) op := by
  rw [run, List.foldl_append]
  rfl

theorem registered_failureRoute (maxConn : ℕ) (msg : Addr) (u : ℤ) :
    registered uid (apply host s (.failureRoute u maxConn msg)) =
      (s.1.registerTableLocal.getOrUnset u maxConn).2.map uid := by
  show (s.1.failureRoute u maxConn msg s.2).2.1.registerTableLocal.map uid = _
  unfold ImUserMessageRouter.failureRoute
  dsimp only
  split <;> rfl

/-- **What a call makes of a registration**: a later update takes its place,
a look-up may erase it, and nothing else changes it. -/
theorem registered_apply :
    registered uid (apply host s op) = some ch ↔
      (∃ msg, op = .update msg ∧ msg.uid = uid ∧ ch = ImUserMessageRouter.channelOf host msg) ∨
        (registered uid s = some ch ∧ ¬ Updates uid op ∧ ¬ Forgets uid ch.conn op) := by
  cases op with
  | update msg =>
    have hmap : registered uid (apply host s (.update msg)) =
        Function.update s.1.registerTableLocal.map msg.uid
          (some (ImUserMessageRouter.channelOf host msg)) uid := rfl
    rw [hmap]
    -- an update for the user, or for another
    rcases eq_or_ne msg.uid uid with rfl | hne
    · rw [Function.update_self]
      refine ⟨fun h => Or.inl ⟨msg, rfl, rfl, (Option.some.inj h).symm⟩, ?_⟩
      rintro (⟨msg', hmsg, -, rfl⟩ | ⟨-, hno, -⟩)
      · rw [RouterOp.update.inj hmsg]
      · exact absurd ⟨msg, rfl, rfl⟩ hno
    · rw [Function.update_of_ne hne.symm]
      refine ⟨fun h => Or.inr ⟨h, ?_, ?_⟩, ?_⟩
      · rintro ⟨msg', hmsg, huid⟩
        rw [← RouterOp.update.inj hmsg] at huid
        exact hne huid
      · rintro ⟨c, v, hop, -⟩
        cases hop
      · rintro (⟨msg', hmsg, huid, -⟩ | ⟨h, -⟩)
        · rw [← RouterOp.update.inj hmsg] at huid
          exact absurd huid hne
        · exact h
  | failureRoute u maxConn v =>
    rw [registered_failureRoute, ImUserChannelRegisterTableLocal.getOrUnset_map]
    refine ⟨?_, ?_⟩
    · rintro ⟨h, hno⟩
      refine Or.inr ⟨h, ?_, ?_⟩
      · rintro ⟨msg, hop, -⟩
        cases hop
      · rintro ⟨c, w, hop, hle⟩
        cases hop
        exact hno ⟨rfl, hle⟩
    · rintro (⟨msg, hop, -⟩ | ⟨h, -, hno⟩)
      · cases hop
      · refine ⟨h, ?_⟩
        rintro ⟨rfl, hle⟩
        exact hno ⟨maxConn, v, rfl, hle⟩

/-- The router at the start, with any queue. -/
def start (Q : MsMessageBlockQueue) (H : Heap) : ImUserMessageRouter × Heap :=
  (⟨ImUserChannelRegisterTableLocal.empty, Q⟩, H)

/-- **The registration of a user is that of the last update**, unless it has
been erased since. -/
theorem registered_run {Q : MsMessageBlockQueue} {H : Heap} (ops : List RouterOp) :
    registered uid (run host (start Q H) ops) = some ch ↔
      ∃ pre msg mid, ops = pre ++ .update msg :: mid ∧ msg.uid = uid ∧
        ch = ImUserMessageRouter.channelOf host msg ∧
        ∀ op ∈ mid, ¬ Updates uid op ∧ ¬ Forgets uid msg.conn op := by
  -- by the last call
  induction ops using List.reverseRecOn generalizing ch with
  | nil =>
    refine ⟨(fun h => nomatch h), ?_⟩
    rintro ⟨pre, msg, mid, hops, -⟩
    exact absurd hops.symm (List.append_ne_nil_of_right_ne_nil _ (List.cons_ne_nil _ _))
  | append_singleton ops op ih =>
    rw [run_append, registered_apply]
    refine ⟨?_, ?_⟩
    · rintro (⟨msg, rfl, huid, rfl⟩ | ⟨hold, hupd, hforget⟩)
      · exact ⟨ops, msg, [], rfl, huid, rfl, fun _ hop => nomatch hop⟩
      · obtain ⟨pre, msg, mid, rfl, huid, rfl, hmid⟩ := ih.mp hold
        refine ⟨pre, msg, mid ++ [op], ?_, huid, rfl, ?_⟩
        · rw [List.append_assoc, List.cons_append]
        · intro o ho
          rcases List.mem_append.mp ho with ho | ho
          · exact hmid o ho
          · rw [List.mem_singleton.mp ho]
            exact ⟨hupd, hforget⟩
    · rintro ⟨pre, msg, mid, hops, huid, rfl, hmid⟩
      rcases mid.eq_nil_or_concat with rfl | ⟨mid, last, rfl⟩
      · obtain ⟨-, rfl⟩ := List.append_inj' hops rfl |>.imp_right fun h => List.cons.inj h |>.1
        exact Or.inl ⟨msg, rfl, huid, rfl⟩
      · rw [List.concat_eq_append, ← List.cons_append, ← List.append_assoc] at hops
        obtain ⟨rfl, hlast⟩ := List.append_inj' hops rfl
        obtain rfl := (List.cons.inj hlast).1
        rw [List.concat_eq_append] at hmid
        refine Or.inr ⟨ih.mpr ⟨pre, msg, mid, rfl, huid, rfl, ?_⟩, ?_⟩
        · exact fun o ho => hmid o (List.mem_append_left _ ho)
        · exact hmid op (List.mem_append_right _ List.mem_cons_self)

/-- **When registrations never go back.**  No call ever replaces a registered
connection of the user by an older one, if and only if two updates for the
user that follow each other come in the order of their connections, unless
the collector has erased the first in between. -/
theorem update_never_back_iff (Q : MsMessageBlockQueue) (H : Heap) (host : ℕ) (uid : ℤ)
    (ops : List RouterOp) :
    (∀ pre op post, ops = pre ++ op :: post →
      ∀ ch ch', registered uid (run host (start Q H) pre) = some ch →
        registered uid (run host (start Q H) (pre ++ [op])) = some ch' → ch.conn ≤ ch'.conn) ↔
      ∀ pre msg mid msg' post, ops = pre ++ .update msg :: mid ++ .update msg' :: post →
        msg.uid = uid → msg'.uid = uid → (∀ op ∈ mid, ¬ Updates uid op) →
        msg.conn ≤ msg'.conn ∨ ∃ op ∈ mid, Forgets uid msg.conn op := by
  refine ⟨?_, ?_⟩
  · intro hnever pre msg mid msg' post hops huid huid' hmid
    refine or_iff_not_imp_right.mpr fun hforget => ?_
    push Not at hforget
    refine hnever (pre ++ .update msg :: mid) (.update msg') post hops _ _
      ((registered_run _).mpr ⟨pre, msg, mid, rfl, huid, rfl, ?_⟩)
      ((registered_run _).mpr ⟨_, msg', [], rfl, huid', rfl, fun _ hop => nomatch hop⟩)
    exact fun op hop => ⟨hmid op hop, hforget op hop⟩
  · intro horder pre op post hops ch ch' hch hch'
    rw [run_append, registered_apply] at hch'
    rcases hch' with ⟨msg', rfl, huid', rfl⟩ | ⟨hsame, -⟩
    · obtain ⟨pre₁, msg, mid, rfl, huid, rfl, hmid⟩ := (registered_run _).mp hch
      rcases horder pre₁ msg mid msg' post hops huid huid' (fun o ho => (hmid o ho).1) with
        hle | ⟨o, ho, hforget⟩
      · exact hle
      · exact absurd hforget (hmid o ho).2
    · rw [Option.some.inj (hch.symm.trans hsame)]

/-- A message of user 7 on connection `conn`. -/
def fromConn (conn : ℕ) : IMessage := { createIMessage [] 0 with uid := 7, conn := conn }

/-- A heartbeat of the old connection is processed after the user has come
back on a new one: the registration goes from connection 2 back to 1. -/
theorem update_goes_back :
    (registered 7 (run 0 (start MsMessageBlockQueue.empty Heap.empty)
      [.update (fromConn 1), .update (fromConn 2)])).map IoChannel.conn = some 2 ∧
    (registered 7 (run 0 (start MsMessageBlockQueue.empty Heap.empty)
      [.update (fromConn 1), .update (fromConn 2), .update (fromConn 1)])).map IoChannel.conn =
      some 1 := by
  decide

end RouterOp

end Xkim
