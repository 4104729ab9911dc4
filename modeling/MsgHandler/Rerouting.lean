/-
MsgHandler/Rerouting.lean

Which connection a message gets when it is routed again
(`message/im_user_message_router.cpp`, `failureRoute`).

The channel that `getOrUnset` finds is newer than every message of the list,
and its `_io` and `_conn` are copied into each of them.  But `_conn` is copied
through a local `int`.  A connection id below `2 ^ 31` passes unchanged, and so
does one of the last `2 ^ 31` ids, which is a negative `int` and is extended
again; every other id loses its upper half.  So the messages get the
connection that is registered exactly if its id passes
(`collect_retargets_iff`), and then their ids grow with each route.
-/
import MsgHandler.UserRouter

namespace Xkim

open ImPendingMessageCollectorCore

/-! ### A connection id in an `int` -/

/-- The id passes through an `int`. -/
def PassesInt (conn : ℕ) : Prop := conn < 2 ^ 31 ∨ 2 ^ 64 - 2 ^ 31 ≤ conn

theorem toUInt64_toInt32_iff {conn : ℕ} (h : conn < 2 ^ 64) :
    toUInt64 (toInt32 conn) = conn ↔ PassesInt conn := by
  unfold toUInt64 toInt32 PassesInt
  rw [Int.bmod_eq_emod]
  split <;> omega

/-! ### The messages of a list -/

variable {R : ImUserMessageRouter} {H : Heap} {v : Addr} {l q : List Addr} {ch : IoChannel}

/-- **What `collect` writes into the messages** of a list that is routed. -/
theorem Collected.collect_msg (h : Collected R H v l q)
    (hch : R.registerTableLocal.Newer (H.msg v).uid (H.msg (maxItem H v l)).conn ch) {a : Addr}
    (ha : a ∈ v :: l) :
    (collect R v H).2.msg a = (H.msg a).setChannel ch.io (toInt32 ch.conn) := by
  have hset := h.setChannel ch.io (toInt32 ch.conn)
  rw [h.collect_eq (h.failureRoute_newer hch) (Heap.chainFrom_eq hset.putList_chain hset.bound)]
  show ((v :: l).foldl (Heap.setChannel ch.io (toInt32 ch.conn)) H).msg a = _
  rw [Heap.foldl_setChannel]
  exact if_pos ha

/-- A list that is not routed stays as it is. -/
theorem Collected.collect_msg_of_not_newer (h : Collected R H v l q)
    (hno : ¬ ∃ ch, R.registerTableLocal.Newer (H.msg v).uid (H.msg (maxItem H v l)).conn ch) :
    (collect R v H).2.msg = H.msg := by
  rw [h.collect_eq (h.failureRoute_not_newer hno) (Heap.chainFrom_eq h.chain h.bound)]

/-- The list is routed, and each message has the channel `ch`. -/
def RoutedTo (R : ImUserMessageRouter) (H : Heap) (v : Addr) (l q : List Addr) (ch : IoChannel) :
    Prop :=
  (collect R v H).1.localQueue.toList (collect R v H).2 = q ++ v :: l ∧
    ∀ a ∈ v :: l, ((collect R v H).2.msg a).io = ch.io ∧ ((collect R v H).2.msg a).conn = ch.conn

/-- A channel registered for the user, newer than each message of the list. -/
structure NewerThanAll (R : ImUserMessageRouter) (H : Heap) (v : Addr) (l : List Addr)
    (ch : IoChannel) : Prop where
  registered : R.registerTableLocal.map (H.msg v).uid = some ch
  newer : ∀ a ∈ v :: l, (H.msg a).conn < ch.conn

theorem NewerThanAll.newer_max (hall : NewerThanAll R H v l ch) (huid : ch.uid ≠ -1) :
    R.registerTableLocal.Newer (H.msg v).uid (H.msg (maxItem H v l)).conn ch :=
  Collected.newer_iff.mpr ⟨hall.registered, huid, hall.newer⟩

theorem Collected.routedTo_iff (h : Collected R H v l q) (hall : NewerThanAll R H v l ch)
    (hconn : ch.conn < 2 ^ 64) :
    RoutedTo R H v l q ch ↔ ch.uid ≠ -1 ∧ PassesInt ch.conn := by
  constructor
  · rintro ⟨hqueue, hmsgs⟩
    have hch : ∃ ch, R.registerTableLocal.Newer (H.msg v).uid (H.msg (maxItem H v l)).conn ch := by
      by_contra hno
      have hsame := (h.collect_not_newer hno).1.toList_eq.symm.trans hqueue
      exact List.cons_ne_nil v l (List.append_right_eq_self.mp hsame.symm)
    obtain ⟨ch', hch'⟩ := hch
    obtain rfl := Option.some.inj (hall.registered.symm.trans hch'.1)
    refine ⟨hch'.2.1, (toUInt64_toInt32_iff hconn).mp ?_⟩
    have hfirst := (hmsgs v List.mem_cons_self).2
    rwa [h.collect_msg hch' List.mem_cons_self, IMessage.setChannel_conn] at hfirst
  · rintro ⟨huid, hpasses⟩
    have hch := hall.newer_max huid
    refine ⟨(h.collect_newer hch).1.toList_eq, fun a ha => ?_⟩
    rw [h.collect_msg hch ha, IMessage.setChannel_conn]
    exact ⟨rfl, (toUInt64_toInt32_iff hconn).mpr hpasses⟩

theorem Collected.not_routed (h : Collected R H v l q) (hno : ¬ ∃ ch, NewerThanAll R H v l ch) :
    (collect R v H).1.localQueue.toList (collect R v H).2 = q ∧
      (collect R v H).2.msg = H.msg := by
  have hno' : ¬ ∃ ch, R.registerTableLocal.Newer (H.msg v).uid
      (H.msg (maxItem H v l)).conn ch := by
    rintro ⟨ch, hch⟩
    obtain ⟨hregistered, -, hnewer⟩ := Collected.newer_iff.mp hch
    exact hno ⟨ch, hregistered, hnewer⟩
  exact ⟨(h.collect_not_newer hno').1.toList_eq, h.collect_msg_of_not_newer hno'⟩

/-! ### Routed again and again -/

/-- The message `a` is routed again `n` times, each time to a newer channel whose
id passes, and its connection goes from `c` to `c'`.  In between the message may
be anywhere, as long as nobody writes its connection. -/
inductive Bounced (a : Addr) (c : ℕ) : ℕ → ℕ → Prop
  | start : Bounced a c 0 c
  | again {n : ℕ} {R : ImUserMessageRouter} {H : Heap} {v : Addr} {l q : List Addr}
      {ch : IoChannel} (before : Bounced a c n (H.msg a).conn) (held : Collected R H v l q)
      (mem : a ∈ v :: l) (newer : NewerThanAll R H v l ch) (uid : ch.uid ≠ -1)
      (fits : ch.conn < 2 ^ 64) (passes : PassesInt ch.conn) :
      Bounced a c (n + 1) ((collect R v H).2.msg a).conn

/-- **Each route makes the connection of a message newer**, so there are not
more of them than connections. -/
theorem Bounced.le {a : Addr} {c c' n : ℕ} (h : Bounced a c n c') :
    c + n ≤ c' ∧ (c < 2 ^ 64 → c' < 2 ^ 64) := by
  induction h with
  | start => exact ⟨le_refl c, id⟩
  | again _ held mem newer uid fits passes ih =>
    have hconn := (((held.routedTo_iff newer fits).mpr ⟨uid, passes⟩).2 _ mem).2
    have hlt := newer.newer _ mem
    rw [hconn]
    exact ⟨by omega, fun _ => fits⟩

/-- **Messages go to the newer connection** if and only if its id passes through
an `int` (and the channel is not the one that says that none was found).  Then
the connection of a message grows with each route, and their number is bounded.
Without a newer connection no message is routed. -/
theorem collect_retargets_iff (h : Collected R H v l q) :
    (∀ ch, NewerThanAll R H v l ch → ch.conn < 2 ^ 64 →
      (RoutedTo R H v l q ch ↔ ch.uid ≠ -1 ∧ PassesInt ch.conn)) ∧
    ((¬ ∃ ch, NewerThanAll R H v l ch) →
      (collect R v H).1.localQueue.toList (collect R v H).2 = q ∧
        (collect R v H).2.msg = H.msg) ∧
    ∀ a c n c', Bounced a c n c' → c + n ≤ c' ∧ (c < 2 ^ 64 → c' < 2 ^ 64) :=
  ⟨fun _ hall hconn => h.routedTo_iff hall hconn, h.not_routed, fun _ _ _ _ hb => hb.le⟩

/-- Two messages follow their user to connection 3. -/
theorem collect_retargets_small : RoutedTo (registeredOn 3) twoCollected 0 [1] [] ⟨7, 0, 3, 0⟩ :=
  ((collect_retargets_iff (twoCollected_collected 3)).1 _ ⟨rfl, by decide⟩ (by decide)).mpr
    ⟨by decide, Or.inl (by decide)⟩

/-- **The upper half is lost.**  The user is on connection `2 ^ 32 + 1`; the messages
of connections 1 and 2 are routed to connection 1. -/
theorem collect_truncates :
    ((collect (registeredOn (2 ^ 32 + 1)) 0 twoCollected).1.localQueue.toList
      (collect (registeredOn (2 ^ 32 + 1)) 0 twoCollected).2).map
        (fun a => ((twoCollected.msg a).conn,
          ((collect (registeredOn (2 ^ 32 + 1)) 0 twoCollected).2.msg a).conn)) =
      [(1, 1), (2, 1)] := by
  decide +kernel

end Xkim
