/-
MsgHandler/Broker.lean

A message from another message handler: `im::MessageBrokerProcessor`
(`thrift/broker/message_broker_processor.cpp`), with the two functions it
rests on, `ImMessageParser::createLocalMsgPack(pack)` and
`ImUserMessageRouter::routeList`.

The message names any number of users.  `createLocalMsgPack` makes one message
for each of them: the first is the message that came in, with its content
replaced, and the others are new, each linked behind the one before.  The pack
is changed in place between them.  `routeList` then takes this list apart: a
message whose user is registered goes to one list, which is handed to the local
router, and any other to a second list, which is returned and goes to the
collector.  Both walks keep the address of the link that is to be written
next; here this is the last node of the list built so far.

So every user gets one message, in one of the two lists
(`Broker.processMsgPack_fanOut`), and the message that came in is disposed of
once, as in the other two processors (`process_consumed_once`).
-/
import MsgHandler.Disposal

namespace Xkim

/-! ### One message for each target -/

/-- `ms::BACKEND`. -/
def BACKEND : ℕ := 2

/-- `TARGET_MAX`. -/
def TARGET_MAX : ℕ := 1024

namespace ImMessageParser

/-- The targets of a pack. -/
def targets (data : ImPack) : List ℤ := ((data.content.getD {}).msg.getD {}).targetUid

/-- `clear_target_uid()` and `add_target_uid(uid)` on the message of a pack. -/
def setTarget (data : ImPack) (uid : ℤ) : ImPack :=
  let content := data.content.getD {}
  { data with
    content := some { content with msg := some { content.msg.getD {} with targetUid := [uid] } } }

/-- What `createLocalMsgPack` writes into a message that has room for the pack.
`type` is `pack->_type`, which `parse` leaves as it is. -/
def fillLocal (C : Codec) (type : ℕ) (data : ImPack) (uid : ℤ) (msg : IMessage) : IMessage :=
  { msg with
    uid := uid
    needCollect := true
    type := type
    «from» := BACKEND
    «to» := APP }.writeData (C.serialize data)

/-- The loop of `createLocalMsgPack` over the targets behind the first; `last`
is the last message so far. -/
def createCopies (C : Codec) (type : ℕ) : List ℤ → ImPack → Addr → Heap → Heap
  | [], _, _, H => H
  | uid :: uids, incoming, last, H =>
    let incoming := setTarget incoming uid
    let size := (C.serialize incoming).length
    let msg := H.brk
    let H := H.newMsg (fillLocal C type incoming uid (createIMessageOfLen size))
    createCopies C type uids incoming msg (H.setNext last (some msg))

end ImMessageParser

/-- `get(key, channel)`. -/
def ImUserChannelRegisterTableLocal.get (T : ImUserChannelRegisterTableLocal) (key : ℤ) :
    IoChannel :=
  (T.map key).getD IoChannel.none

/-- The loop of `routeList`, with the table as it is at each of the look-ups:
the messages of registered users, and the others. -/
def ImUserMessageRouter.routeLoop :
    List ImUserChannelRegisterTableLocal → Option Addr → Links Addr → Links Addr → Heap →
      Links Addr × Links Addr × Heap
  | [], _, loc, pend, H => (loc, pend, H)
  | _ :: _, none, loc, pend, H => (loc, pend, H)
  | T :: Ts, some msg, loc, pend, H =>
    let channel := T.get (H.msg msg).uid
    if channel.uid ≠ -1 then
      let H := H.setMsg msg { H.msg msg with io := channel.io, conn := channel.conn }
      let r := loc.attach H.next msg msg
      -- the next message is read before the link is cleared
      routeLoop Ts (r.1 msg) r.2 pend { H with next := Function.update r.1 msg none }
    else
      let r := pend.attach H.next msg msg
      routeLoop Ts (r.1 msg) loc r.2 { H with next := Function.update r.1 msg none }

namespace Job

open ImMessageParser

/-- `createLocalMsgPack(pack)`: null if there is no target.  The array that the
targets are copied to has `TARGET_MAX` entries; nothing checks their number,
and here they are read back as they were written. -/
def createLocalMsgPack (C : Codec) (type : ℕ) (j : Job) : Option (Option Addr × Job) :=
  match targets j.data with
  | [] => some (none, j)
  | uid :: uids =>
    j.packMsg.map fun v =>
      let incoming := setTarget j.data uid
      let size := (C.serialize incoming).length
      -- the message that came in is used again for the first target
      let H := j.heap.setMsg v (fillLocal C type incoming uid (fixIMessage (j.heap.msg v) size))
      (some v, { j with heap := createCopies C type uids incoming v H, packMsg := none })

/-- `routeList(msg)`: what could not be routed. -/
def routeList (Ts : List ImUserChannelRegisterTableLocal) (msg : Addr) (j : Job) :
    Option Addr × Job :=
  let r := ImUserMessageRouter.routeLoop Ts (some msg) Links.empty Links.empty j.heap
  let j := { j with heap := r.2.2 }
  (r.2.1.head, match r.1.head with
    | some localList => j.routeBack localList
    | none => j)

namespace Broker

/-- `processMsgPack(pack)`; `collects` is whether there is a collector. -/
def processMsgPack (C : Codec) (type : ℕ) (collects : Bool)
    (Ts : List ImUserChannelRegisterTableLocal) (j : Job) : Option (ℤ × Job) :=
  j.pack.bind fun pack =>
    let uid := getMsgPackUser pack
    if uid = -1 then some (-1, j)
    else
      (j.createLocalMsgPack C type).map fun r =>
        match r.1 with
        | none => (-1, r.2)
        | some msg =>
          let s := r.2.routeList Ts msg
          match s.1 with
          | none => (0, s.2)
          | some pending =>
            -- `collectList`, or a loop that releases one message after the other
            (0, s.2.give (if collects then .collected else .released)
              (s.2.heap.chainFrom pending))

/-- The end of `process`: an error releases the message. -/
def finish (v : Addr) (r : ℤ × Job) : ℤ × Job :=
  if r.1 = -1 then (r.1, r.2.give .released [v]) else r

/-- `process(msg)`. -/
def process (C : Codec) (type : ℕ) (collects : Bool) (Ts : List ImUserChannelRegisterTableLocal)
    (v : Addr) (H : Heap) : Option (ℤ × Job) :=
  match parse C (H.msg v) with
  | none => some (-1, (start v {} H).give .released [v])
  | some pack =>
    (match getMessagePackType pack with
      | .msg => processMsgPack C type collects Ts (start v pack.data H)
      | _ => some (-1, start v pack.data H)).map (finish v)

end Broker

end Job

/-! ### What is in a copy -/

/-- `ParseFromArray` reads back what `SerializeToArray` writes. -/
def Codec.Inverts (C : Codec) (data : ImPack) : Prop := C.parse (C.serialize data) = some data

instance (C : Codec) (data : ImPack) : Decidable (C.Inverts data) :=
  inferInstanceAs (Decidable (C.parse (C.serialize data) = some data))

namespace ImMessageParser

variable {C : Codec} {type : ℕ} {data : ImPack} {uid : ℤ}

/-- The message is for the target `uid`, and so is the pack in it. -/
structure CopyOf (C : Codec) (data : ImPack) (uid : ℤ) (m : IMessage) : Prop where
  user : m.uid = uid
  bytes : m.data = C.serialize (setTarget data uid)

theorem fillLocal_copyOf {m : IMessage} (hb : 8 ≤ m.b.length)
    (hlen : m.dataLen = (C.serialize (setTarget data uid)).length) :
    CopyOf C data uid (fillLocal C type (setTarget data uid) uid m) := by
  refine ⟨rfl, ?_⟩
  exact data_writeData (m := { m with
    uid := uid, needCollect := true, type := type, «from» := BACKEND, «to» := APP }) hb hlen

/-- A pack that was parsed has a type. -/
theorem parse_type {m : IMessage} {pack : IMessagePack} (h : parse C m = some pack) :
    pack.data.type.isSome := by
  unfold ImMessageParser.parse at h
  split at h
  · split at h
    · rename_i hfields
      obtain rfl := Option.some.inj h
      exact (Bool.and_eq_true_iff.mp hfields).1
    · cases h
  · cases h

theorem CopyOf.parse {m : IMessage} (h : CopyOf C data uid m) (htype : data.type.isSome)
    (hC : C.Inverts (setTarget data uid)) : parse C m = some ⟨m, setTarget data uid⟩ := by
  have hread : C.parse m.data = some (setTarget data uid) := by
    rw [h.bytes]
    exact hC
  unfold ImMessageParser.parse
  rw [hread]
  exact if_pos (by simpa [setTarget] using htype)

/-! ### One message for each target -/

/-- What the loop makes of the targets `uids`: new messages in this order,
linked behind `last`. -/
structure Copied (C : Codec) (uids : List ℤ) (data : ImPack) (last : Addr) (H H' : Heap) :
    Prop where
  brk : H'.brk = H.brk + uids.length
  chain : Chain H'.next (some last) (last :: List.range' H.brk uids.length)
  next : ∀ a < H.brk, a ≠ last → H'.next a = H.next a
  copies : ∀ e ∈ (List.range' H.brk uids.length).zip uids, CopyOf C data e.2 (H'.msg e.1)
  rest : ∀ a ∉ List.range' H.brk uids.length, H'.msg a = H.msg a

theorem createCopies_copied (C : Codec) (type : ℕ) (uids : List ℤ) (data : ImPack) (last : Addr)
    (H : Heap) (hlast : Held H last) :
    Copied C uids data last H (createCopies C type uids data last H) := by
  induction uids generalizing data last H with
  | nil =>
    refine ⟨rfl, ⟨rfl, hlast.next⟩, fun _ _ _ => rfl, ?_, fun _ _ => rfl⟩
    rintro _ ⟨⟩
  | cons uid uids ih =>
    -- the heap with the new message, linked
    set H₁ := (H.newMsg (fillLocal C type (setTarget data uid) uid
      (createIMessageOfLen (C.serialize (setTarget data uid)).length))).setNext last (some H.brk)
      with hH₁
    have hne : H.brk ≠ last := hlast.ne_brk.symm
    have hheld : Held H₁ H.brk := by
      refine ⟨Nat.lt_succ_self _, ?_⟩
      exact (Function.update_of_ne hne ..).trans (Function.update_self ..)
    have hcopied := ih (setTarget data uid) H.brk H₁ hheld
    have hrange : List.range' H.brk (uids.length + 1) =
        H.brk :: List.range' (H.brk + 1) uids.length := List.range'_succ ..
    rw [createCopies]
    refine ⟨?_, ?_, ?_, ?_, ?_⟩
    · rw [hcopied.brk, List.length_cons]
      show H.brk + 1 + uids.length = _
      omega
    · rw [List.length_cons, hrange]
      refine ⟨rfl, ?_⟩
      rw [hcopied.next last (Nat.lt_succ_of_lt hlast.lt) hne.symm,
        show H₁.next last = some H.brk from Function.update_self ..]
      exact hcopied.chain
    · intro a ha halast
      rw [hcopied.next a (Nat.lt_succ_of_lt ha) ha.ne]
      exact (Function.update_of_ne halast ..).trans (Function.update_of_ne ha.ne ..)
    · rw [List.length_cons, hrange, List.zip_cons_cons]
      intro e he
      rcases List.mem_cons.mp he with rfl | he
      · -- the first of them is not written again
        show CopyOf C data uid _
        rw [hcopied.rest H.brk (by simp [H₁, Heap.setNext, Heap.newMsg]),
          show H₁.msg H.brk = _ from Function.update_self ..]
        exact fillLocal_copyOf (createIMessageOfLen_room _) rfl
      · -- only the target of the pack differs
        have hcopy := hcopied.copies e he
        exact ⟨hcopy.user, hcopy.bytes⟩
    · intro a ha
      rw [List.length_cons, hrange, List.mem_cons, not_or] at ha
      rw [hcopied.rest a ha.2]
      exact Function.update_of_ne ha.1 ..

end ImMessageParser

/-! ### Two lists -/

namespace ImUserMessageRouter

/-- The messages whose look-ups found a channel. -/
def registered (l : List Addr) (chs : List IoChannel) : List Addr :=
  ((l.zip chs).filter fun e => e.2.uid ≠ -1).map Prod.fst

/-- The other messages. -/
def unregistered (l : List Addr) (chs : List IoChannel) : List Addr :=
  ((l.zip chs).filter fun e => e.2.uid = -1).map Prod.fst

variable {a v : Addr} {l : List Addr} {ch : IoChannel} {chs : List IoChannel}

theorem mem_of_mem_registered (h : a ∈ registered l chs) : a ∈ l := by
  obtain ⟨e, he, rfl⟩ := List.mem_map.mp h
  exact (List.of_mem_zip (List.mem_of_mem_filter he)).1

theorem mem_of_mem_unregistered (h : a ∈ unregistered l chs) : a ∈ l := by
  obtain ⟨e, he, rfl⟩ := List.mem_map.mp h
  exact (List.of_mem_zip (List.mem_of_mem_filter he)).1

/-- Every message is in one of the two lists. -/
theorem count_registered_add (v : Addr) (hlen : l.length = chs.length) :
    (registered l chs).count v + (unregistered l chs).count v = l.count v := by
  induction l generalizing chs with
  | nil => rfl
  | cons a l ih =>
    cases chs with
    | nil => cases hlen
    | cons ch chs =>
      have hih := ih (Nat.succ.inj hlen)
      rw [List.count_cons, ← hih]
      by_cases hch : ch.uid = -1
      · simp [registered, unregistered, hch, List.count_cons]
        omega
      · simp [registered, unregistered, hch, List.count_cons]
        omega

/-- The channel that a look-up found is written into the message. -/
def sendTo (ch : IoChannel) (m : IMessage) : IMessage :=
  if ch.uid ≠ -1 then { m with io := ch.io, conn := ch.conn } else m

/-- What the loop makes of the messages `l`, given what the look-ups found and
the lists `ll` and `pl` so far. -/
structure Split (l : List Addr) (chs : List IoChannel) (ll pl : List Addr) (H : Heap)
    (r : Links Addr × Links Addr × Heap) : Prop where
  loc : Links.Rep r.2.2.next r.1 (ll ++ registered l chs)
  pend : Links.Rep r.2.2.next r.2.1 (pl ++ unregistered l chs)
  brk : r.2.2.brk = H.brk
  msgs : ∀ e ∈ l.zip chs, r.2.2.msg e.1 = sendTo e.2 (H.msg e.1)
  rest : ∀ a ∉ l, r.2.2.msg a = H.msg a
  next : ∀ a, a ∉ l → a ∉ ll → a ∉ pl → r.2.2.next a = H.next a

/-- One round of the loop, and the rest of it. -/
theorem Split.cons {ll ll' pl pl' : List Addr} {H H' : Heap}
    {r : Links Addr × Links Addr × Heap} (h : Split l chs ll' pl' H' r)
    (hll : ll' = if ch.uid ≠ -1 then ll ++ [v] else ll)
    (hpl : pl' = if ch.uid ≠ -1 then pl else pl ++ [v]) (hv : v ∉ l) (hbrk : H'.brk = H.brk)
    (hmsg : H'.msg = Function.update H.msg v (sendTo ch (H.msg v)))
    (hnext : ∀ a, a ≠ v → a ∉ ll → a ∉ pl → H'.next a = H.next a) :
    Split (v :: l) (ch :: chs) ll pl H r := by
  subst hll hpl
  have hkeep : ∀ a ≠ v, H'.msg a = H.msg a := fun a ha => by
    rw [hmsg, Function.update_of_ne ha]
  refine ⟨?_, ?_, h.brk.trans hbrk, ?_, ?_, ?_⟩
  · have hloc := h.loc
    by_cases hch : ch.uid = -1
    · simpa [registered, hch] using hloc
    · simpa [registered, hch] using hloc
  · have hpend := h.pend
    by_cases hch : ch.uid = -1
    · simpa [unregistered, hch] using hpend
    · simpa [unregistered, hch] using hpend
  · intro e he
    rcases List.mem_cons.mp he with rfl | hmem
    · rw [h.rest v hv, hmsg, Function.update_self]
    · have hne : e.1 ≠ v := by
        rintro rfl
        exact hv (List.of_mem_zip hmem).1
      rw [h.msgs e hmem, hkeep e.1 hne]
  · intro a ha
    rw [List.mem_cons, not_or] at ha
    rw [h.rest a ha.2, hkeep a ha.1]
  · intro a ha hall hapl
    rw [List.mem_cons, not_or] at ha
    rw [← hnext a ha.1 hall hapl]
    refine h.next a ha.2 ?_ ?_
    · split
      · simpa [ha.1] using hall
      · exact hall
    · split
      · exact hapl
      · simpa [ha.1] using hapl

/-- The loop stands at `p`, with the messages `l` to go; the three lists share
no message. -/
structure Ready (uid : Addr → ℤ) (p : Option Addr) (l : List Addr) (loc : Links Addr)
    (ll : List Addr) (pend : Links Addr) (pl : List Addr) (H : Heap) : Prop where
  chain : Chain H.next p l
  uids : ∀ a ∈ l, (H.msg a).uid = uid a
  locRep : Links.Rep H.next loc ll
  pendRep : Links.Rep H.next pend pl
  notLoc : ∀ a ∈ l, a ∉ ll
  notPend : ∀ a ∈ l, a ∉ pl
  apart : ∀ a ∈ ll, a ∉ pl

section

variable {uid : Addr → ℤ} {p : Option Addr} {loc pend : Links Addr} {ll pl : List Addr}
  {H K : Heap}

theorem Ready.swap (h : Ready uid p l loc ll pend pl H) : Ready uid p l pend pl loc ll H :=
  ⟨h.chain, h.uids, h.pendRep, h.locRep, h.notPend, h.notLoc, fun a ha hl => h.apart a hl ha⟩

/-- The first message moves behind one of the two lists. -/
theorem Ready.move (h : Ready uid (some v) (v :: l) loc ll pend pl H)
    (hmsg : ∀ a ≠ v, K.msg a = H.msg a)
    (hnext : K.next = Function.update (loc.attach H.next v v).1 v none) :
    Ready uid ((loc.attach H.next v v).1 v) l (loc.attach H.next v v).2 (ll ++ [v]) pend pl K := by
  have hvl : v ∉ l := (List.nodup_cons.mp (Chain.nodup h.chain)).1
  have hvpl : v ∉ pl := h.notPend v List.mem_cons_self
  have hne : ∀ a ∈ l, a ≠ v := by
    rintro a ha rfl
    exact hvl ha
  obtain ⟨hmove, hv, hframe⟩ := h.locRep.move (h.notLoc v List.mem_cons_self)
  rw [← hnext] at hmove hframe
  refine ⟨?_, ?_, hmove, ?_, ?_, ?_, ?_⟩
  · rw [hv]
    refine Seg.congr h.chain.2 ?_
    intro a ha
    exact hframe a (h.notLoc a (List.mem_cons_of_mem _ ha)) (hne a ha)
  · intro a ha
    rw [hmsg a (hne a ha)]
    exact h.uids a (List.mem_cons_of_mem _ ha)
  · refine h.pendRep.congr ?_
    intro a ha
    refine hframe a (fun hall => h.apart a hall ha) ?_
    rintro rfl
    exact hvpl ha
  · intro a ha hmem
    rcases List.mem_append.mp hmem with hall | hav
    · exact h.notLoc a (List.mem_cons_of_mem _ ha) hall
    · exact hne a ha (List.mem_singleton.mp hav)
  · intro a ha
    exact h.notPend a (List.mem_cons_of_mem _ ha)
  · intro a ha
    rcases List.mem_append.mp ha with hall | hav
    · exact h.apart a hall
    · rw [List.mem_singleton.mp hav]
      exact hvpl

/-- **The loop takes a list apart**, whatever table each of the look-ups
sees. -/
theorem routeLoop_split (Ts : List ImUserChannelRegisterTableLocal) (hlen : l.length ≤ Ts.length)
    (h : Ready uid p l loc ll pend pl H) :
    Split l (List.zipWith (fun a T => T.get (uid a)) l Ts) ll pl H (routeLoop Ts p loc pend H) := by
  induction l generalizing Ts p loc pend ll pl H with
  | nil =>
    obtain rfl : p = none := h.chain
    have hend : routeLoop Ts none loc pend H = (loc, pend, H) := by cases Ts <;> rfl
    rw [hend]
    refine ⟨?_, ?_, rfl, ?_, fun _ _ => rfl, fun _ _ _ _ => rfl⟩
    · simpa [registered] using h.locRep
    · simpa [unregistered] using h.pendRep
    · rintro _ ⟨⟩
  | cons v l ih =>
    obtain ⟨T, Ts, rfl⟩ : ∃ T Ts', Ts = T :: Ts' :=
      List.exists_cons_of_length_pos (lt_of_lt_of_le (Nat.succ_pos _) hlen)
    have hlen' := Nat.le_of_succ_le_succ hlen
    have hvl : v ∉ l := (List.nodup_cons.mp (Chain.nodup h.chain)).1
    obtain rfl : p = some v := h.chain.1
    rw [List.zipWith_cons_cons, ← h.uids v List.mem_cons_self, routeLoop]
    set ch := T.get (H.msg v).uid
    dsimp only
    by_cases hreg : ch.uid ≠ -1
    · rw [if_pos hreg]
      have hround := ih Ts hlen' (h.move
        (K := { H.setMsg v { H.msg v with io := ch.io, conn := ch.conn } with
          next := Function.update (loc.attach H.next v v).1 v none })
        (fun a ha => Function.update_of_ne ha ..) rfl)
      refine hround.cons (if_pos hreg).symm (if_pos hreg).symm hvl rfl ?_ ?_
      · rw [sendTo, if_pos hreg]
        rfl
      · intro a hav hall _
        exact (h.locRep.move (h.notLoc v List.mem_cons_self)).2.2 a hall hav
    · rw [if_neg hreg]
      have hround := ih Ts hlen' (h.swap.move
        (K := { H with next := Function.update (pend.attach H.next v v).1 v none })
        (fun a _ => rfl) rfl).swap
      refine hround.cons (if_neg hreg).symm (if_neg hreg).symm hvl rfl ?_ ?_
      · rw [sendTo, if_neg hreg, Function.update_eq_self]
      · intro a hav _ hapl
        exact (h.pendRep.move (h.notPend v List.mem_cons_self)).2.2 a hapl hav

end

end ImUserMessageRouter

/-! ### One copy for each target -/

namespace Job

open ImMessageParser ImUserMessageRouter

variable (C : Codec) (type : ℕ) (collects : Bool) {v : Addr} {H : Heap} {data : ImPack}

/-- The messages for `n` targets: the one that came in, and new ones. -/
def copies (v : Addr) (H : Heap) (n : ℕ) : List Addr := v :: List.range' H.brk (n - 1)

theorem length_copies {n : ℕ} (hn : n ≠ 0) : (copies v H n).length = n := by
  rw [copies, List.length_cons, List.length_range']
  omega

/-- The memory `K` has one message for each target of the pack. -/
structure Made (C : Codec) (data : ImPack) (v : Addr) (H K : Heap) : Prop where
  brk : K.brk = H.brk + ((targets data).length - 1)
  chain : Chain K.next (some v) (copies v H (targets data).length)
  each : ∀ e ∈ (copies v H (targets data).length).zip (targets data),
    CopyOf C data e.2 (K.msg e.1)
  rest : ∀ a ∉ copies v H (targets data).length, K.msg a = H.msg a

/-- **`createLocalMsgPack`** makes one message for each target. -/
theorem createLocalMsgPack_made (hv : Held H v) (htargets : targets data ≠ []) :
    ∃ j, (start v data H).createLocalMsgPack C type = some (some v, j) ∧ j.handed = [] ∧
      Made C data v H j.heap := by
  obtain ⟨uid, uids, huids⟩ := List.exists_cons_of_ne_nil htargets
  have hfix := fixIMessage_room (H.msg v) (C.serialize (setTarget data uid)).length
  set m := fillLocal C type (setTarget data uid) uid
    (fixIMessage (H.msg v) (C.serialize (setTarget data uid)).length) with hm
  have hfirst : CopyOf C data uid m := fillLocal_copyOf hfix.1 hfix.2
  have hcopied := createCopies_copied C type uids (setTarget data uid) v _ (hv.setMsg v m)
  refine ⟨{ start v data H with
    heap := createCopies C type uids (setTarget data uid) v (H.setMsg v m), packMsg := none },
    ?_, rfl, ?_, ?_, ?_, ?_⟩
  · unfold createLocalMsgPack
    rw [show targets (start v data H).data = uid :: uids from huids]
    rfl
  · rw [huids]
    exact hcopied.brk
  · rw [huids]
    exact hcopied.chain
  · rw [huids, copies, List.length_cons, Nat.add_sub_cancel, List.zip_cons_cons]
    intro e he
    rcases List.mem_cons.mp he with rfl | he
    · -- no copy is written over the first message
      have hmem : v ∉ List.range' H.brk uids.length := by
        intro hmem
        exact absurd (List.mem_range'_1.mp hmem).1 (not_le.mpr hv.lt)
      show CopyOf C data uid _
      rw [hcopied.rest v hmem, Heap.setMsg_self]
      exact hfirst
    · have hcopy := hcopied.copies e he
      exact ⟨hcopy.user, hcopy.bytes⟩
  · rw [huids, copies, List.length_cons, Nat.add_sub_cancel]
    intro a ha
    rw [List.mem_cons, not_or] at ha
    rw [hcopied.rest a ha.2]
    exact Function.update_of_ne ha.1 ..

/-- The copies have their users in them. -/
theorem Made.uids {K : Heap} (h : Made C data v H K) (htargets : targets data ≠ []) :
    (copies v H (targets data).length).map (fun a => (K.msg a).uid) = targets data := by
  rw [← List.forall₂_eq_eq_eq, List.forall₂_map_left_iff, List.forall₂_iff_zip]
  refine ⟨length_copies (by simpa using htargets), ?_⟩
  intro a uid he
  exact (h.each (a, uid) he).user

/-- A call that takes over a list, unless the list is empty. -/
def handOver (m : Manner) (l : List Addr) : List (Manner × List Addr) :=
  if l = [] then [] else [(m, l)]

@[simp] theorem handOver_nil (m : Manner) : handOver m [] = [] := rfl

@[simp] theorem handOver_cons (m : Manner) (a : Addr) (l : List Addr) :
    handOver m (a :: l) = [(m, a :: l)] := rfl

/-- What has become of a pack, given the channels that the look-ups of its
targets found. -/
structure FanOut (C : Codec) (collects : Bool) (data : ImPack) (v : Addr) (H : Heap)
    (chs : List IoChannel) (j : Job) : Prop where
  brk : j.heap.brk = H.brk + ((targets data).length - 1)
  nodup : (copies v H (targets data).length).Nodup
  handed : j.handed =
    handOver .routed (registered (copies v H (targets data).length) chs) ++
      handOver (if collects then .collected else .released)
        (unregistered (copies v H (targets data).length) chs)
  loc : Chain j.heap.next (registered (copies v H (targets data).length) chs).head?
    (registered (copies v H (targets data).length) chs)
  pend : Chain j.heap.next (unregistered (copies v H (targets data).length) chs).head?
    (unregistered (copies v H (targets data).length) chs)
  each : ∀ e ∈ (copies v H (targets data).length).zip (targets data),
    CopyOf C data e.2 (j.heap.msg e.1)
  channel : ∀ e ∈ (copies v H (targets data).length).zip chs, e.2.uid ≠ -1 →
    (j.heap.msg e.1).io = e.2.io ∧ (j.heap.msg e.1).conn = e.2.conn
  rest : ∀ a ∉ copies v H (targets data).length, j.heap.msg a = H.msg a

/-- **`routeList`** hands one list to the local router and returns the other. -/
theorem routeList_eq {Ts : List ImUserChannelRegisterTableLocal} {l : List Addr}
    {chs : List IoChannel} {j : Job} (hbound : ∀ a ∈ l, a < j.heap.brk)
    (h : Split l chs [] [] j.heap (routeLoop Ts (some v) Links.empty Links.empty j.heap)) :
    (j.routeList Ts v).1 = (unregistered l chs).head? ∧
      (j.routeList Ts v).2.heap =
        (routeLoop Ts (some v) Links.empty Links.empty j.heap).2.2 ∧
      (j.routeList Ts v).2.handed = j.handed ++ handOver .routed (registered l chs) := by
  have hhead := h.loc.head_eq
  have hloc := h.loc.1
  rw [hhead] at hloc
  rw [List.nil_append] at hloc hhead
  refine ⟨h.pend.head_eq, ?_, ?_⟩
  · unfold routeList
    dsimp only
    rw [hhead]
    cases (registered l chs).head? <;> rfl
  · unfold routeList
    dsimp only
    rw [hhead]
    rcases hreg : registered l chs with - | ⟨a, l'⟩
    · simp
    · rw [hreg] at hloc
      have hchain := Heap.chainFrom_eq hloc fun b hb => by
        rw [h.brk]
        exact hbound b (mem_of_mem_registered (hreg ▸ hb))
      rw [handOver_cons]
      show j.handed ++ [(Manner.routed, _)] = _
      rw [hchain]

/-- What is in a message is not changed by sending it. -/
theorem CopyOf.sendTo {uid : ℤ} {m : IMessage} (h : CopyOf C data uid m) (ch : IoChannel) :
    CopyOf C data uid (sendTo ch m) := by
  unfold ImUserMessageRouter.sendTo
  split
  · exact ⟨h.user, h.bytes⟩
  · exact h

theorem Made.bound {K : Heap} (h : Made C data v H K) (hv : Held H v) :
    ∀ a ∈ copies v H (targets data).length, a < K.brk := by
  intro a ha
  rw [h.brk]
  rcases List.mem_cons.mp ha with rfl | ha
  · exact lt_of_lt_of_le hv.lt (Nat.le_add_right _ _)
  · exact (List.mem_range'_1.mp ha).2

/-- The look-ups of `routeList` are those of the targets. -/
theorem Made.split {K : Heap} (h : Made C data v H K) (htargets : targets data ≠ [])
    {Ts : List ImUserChannelRegisterTableLocal} (hlen : (targets data).length ≤ Ts.length) :
    Split (copies v H (targets data).length)
      (List.zipWith (fun uid T => T.get uid) (targets data) Ts) [] [] K
      (routeLoop Ts (some v) Links.empty Links.empty K) := by
  have hcount : (copies v H (targets data).length).length = (targets data).length :=
    length_copies (by simpa using htargets)
  have hready : Ready (fun a => (K.msg a).uid) (some v) (copies v H (targets data).length)
      Links.empty [] Links.empty [] K :=
    ⟨h.chain, fun _ _ => rfl, Links.rep_empty, Links.rep_empty, fun _ _ => List.not_mem_nil,
      fun _ _ => List.not_mem_nil, fun _ ha => absurd ha List.not_mem_nil⟩
  have hsplit := routeLoop_split Ts (hcount.trans_le hlen) hready
  have hchs : List.zipWith (fun uid T => ImUserChannelRegisterTableLocal.get T uid)
      ((copies v H (targets data).length).map fun a => (K.msg a).uid) Ts =
        List.zipWith (fun a T => T.get (K.msg a).uid) (copies v H (targets data).length) Ts :=
    List.zipWith_map_left
  rw [h.uids C htargets] at hchs
  rw [hchs]
  exact hsplit

/-- The two lists of a split, handed over. -/
theorem Made.fanOut {K : Heap} (h : Made C data v H K) {chs : List IoChannel}
    (hlen : (targets data).length ≤ chs.length) {r : Links Addr × Links Addr × Heap}
    (hsplit : Split (copies v H (targets data).length) chs [] [] K r) {j : Job}
    (hheap : j.heap = r.2.2)
    (hhanded : j.handed = handOver .routed (registered (copies v H (targets data).length) chs) ++
      handOver (if collects then .collected else .released)
        (unregistered (copies v H (targets data).length) chs)) :
    FanOut C collects data v H chs j := by
  have hloc := hsplit.loc.1
  have hpend := hsplit.pend.1
  rw [hsplit.loc.head_eq] at hloc
  rw [hsplit.pend.head_eq] at hpend
  refine ⟨?_, Chain.nodup h.chain, hhanded, ?_, ?_, ?_, ?_, ?_⟩
  · rw [hheap, hsplit.brk, h.brk]
  · rw [hheap]
    exact hloc
  · rw [hheap]
    exact hpend
  · -- the channel found for the target stands at the same place
    intro e he
    obtain ⟨i, hi, rfl⟩ := List.getElem_of_mem he
    rw [List.length_zip, lt_min_iff] at hi
    have hch : i < chs.length := lt_of_lt_of_le hi.2 hlen
    have hmem : ((copies v H (targets data).length)[i], chs[i]) ∈
        (copies v H (targets data).length).zip chs := by
      rw [← List.getElem_zip]
      exact List.getElem_mem (by rw [List.length_zip]; exact lt_min hi.1 hch)
    have hcopy := h.each _ he
    rw [List.getElem_zip] at hcopy ⊢
    rw [hheap, hsplit.msgs _ hmem]
    exact CopyOf.sendTo C hcopy _
  · intro e he hreg
    rw [hheap, hsplit.msgs e he, sendTo, if_pos hreg]
    exact ⟨rfl, rfl⟩
  · intro a ha
    rw [hheap, hsplit.rest a ha, h.rest a ha]

/-- **The messages for the targets are split** by what the look-ups find,
whatever table each of them sees. -/
theorem Broker.processMsgPack_fansOut (hv : Held H v) (huid : getMsgPackUser ⟨H.msg v, data⟩ ≠ -1)
    (htargets : targets data ≠ []) {Ts : List ImUserChannelRegisterTableLocal}
    (hlen : (targets data).length ≤ Ts.length) :
    ∃ j, Broker.processMsgPack C type collects Ts (start v data H) = some (0, j) ∧
      FanOut C collects data v H (List.zipWith (fun uid T => T.get uid) (targets data) Ts) j := by
  obtain ⟨j, hj, hnone, hmade⟩ := createLocalMsgPack_made C type hv htargets
  have hsplit := hmade.split C htargets hlen
  have hbound := hmade.bound C hv
  obtain ⟨hpending, hheap, hhanded⟩ := routeList_eq hbound hsplit
  have hchs : (targets data).length ≤
      (List.zipWith (fun uid T => ImUserChannelRegisterTableLocal.get T uid) (targets data)
        Ts).length := by
    rw [List.length_zipWith]
    exact le_min le_rfl hlen
  unfold Broker.processMsgPack
  rw [pack_eq rfl, Option.bind_some]
  dsimp only
  rw [if_neg (show ¬ getMsgPackUser ⟨(start v data H).heap.msg v, (start v data H).data⟩ = -1
    from huid), hj, Option.map_some]
  dsimp only
  rw [hpending]
  rcases hnil : unregistered (copies v H (targets data).length) _ with - | ⟨a, l⟩
  · refine ⟨_, rfl, hmade.fanOut C collects hchs hsplit hheap ?_⟩
    rw [hhanded, hnone, hnil, handOver_nil, List.append_nil, List.nil_append]
  · have hpend := hsplit.pend.1
    rw [hsplit.pend.head_eq, List.nil_append, hnil, ← hheap] at hpend
    have hchain : (routeList Ts v j).2.heap.chainFrom a = a :: l := by
      refine Heap.chainFrom_eq hpend ?_
      intro b hb
      rw [hheap, hsplit.brk]
      exact hbound b (mem_of_mem_unregistered (hnil ▸ hb))
    refine ⟨_, rfl, hmade.fanOut C collects hchs hsplit hheap ?_⟩
    show (routeList Ts v j).2.handed ++ [(_, (routeList Ts v j).2.heap.chainFrom a)] = _
    rw [hhanded, hnone, hnil, hchain, handOver_cons, List.nil_append]

/-- **Fan-out.**  For any state of the register table, a pack with a user and
`n` targets becomes `n` messages: the local router gets those for registered
users, and the others are pending. -/
theorem Broker.processMsgPack_fanOut (C : Codec) (type : ℕ) (collects : Bool)
    (T : ImUserChannelRegisterTableLocal) {v : Addr} {H : Heap} {pack : IMessagePack}
    (hv : Held H v) (hparse : parse C (H.msg v) = some pack) (huid : getMsgPackUser pack ≠ -1)
    (hn : 1 ≤ (targets pack.data).length ∧ (targets pack.data).length ≤ TARGET_MAX)
    (hC : ∀ uid ∈ targets pack.data, C.Inverts (setTarget pack.data uid)) :
    ∃ j, Broker.processMsgPack C type collects
        (List.replicate (targets pack.data).length T) (start v pack.data H) = some (0, j) ∧
      FanOut C collects pack.data v H ((targets pack.data).map T.get) j ∧
      ∀ e ∈ (copies v H (targets pack.data).length).zip (targets pack.data),
        parse C (j.heap.msg e.1) = some ⟨j.heap.msg e.1, setTarget pack.data e.2⟩ := by
  have htargets : targets pack.data ≠ [] := List.ne_nil_of_length_pos hn.1
  have huser : getMsgPackUser ⟨H.msg v, pack.data⟩ ≠ -1 := by
    rw [← (parse_some hparse).1]
    exact huid
  have hlen : (targets pack.data).length ≤
      (List.replicate (targets pack.data).length T).length := by
    rw [List.length_replicate]
  obtain ⟨j, hj, hfan⟩ := Broker.processMsgPack_fansOut C type collects hv huser htargets hlen
  have hchs : List.zipWith (fun uid T => ImUserChannelRegisterTableLocal.get T uid)
      (targets pack.data) (List.replicate (targets pack.data).length T) =
        (targets pack.data).map T.get := by
    refine List.ext_getElem (by simp) ?_
    intro i _ _
    simp
  rw [hchs] at hfan
  refine ⟨j, hj, hfan, ?_⟩
  intro e he
  exact (hfan.each e he).parse (parse_type hparse) (hC e.2 (List.of_mem_zip he).2)

/-- The request of a user to the targets `ts`, with the sequence number 5. -/
def requestTo (u : ℤ) (ts : List ℤ) : ImPack :=
  { type := some .msg
    content := some
      { msg := some { uid := some u, seq := some 5, targetUid := ts, type := some .request } } }

/-- The encoding of the request of user 7 to the users 1, 2 and 1. -/
def threeTargets : List UInt8 := [8, 3, 18, 14, 26, 12, 8, 7, 16, 5, 24, 1, 24, 2, 24, 1, 32, 1]

/-- The same with the user -1 and one target, the user 5. -/
def minusOne : List UInt8 :=
  [8, 3, 18, 19, 26, 17, 8, 255, 255, 255, 255, 255, 255, 255, 255, 255, 1, 16, 5, 24, 5, 32, 1]

/-- These requests, and those to one user into which the first is split. -/
def requests : Codec :=
  .ofTable [(threeTargets, requestTo 7 [1, 2, 1]),
    ([8, 3, 18, 10, 26, 8, 8, 7, 16, 5, 24, 1, 32, 1], requestTo 7 [1]),
    ([8, 3, 18, 10, 26, 8, 8, 7, 16, 5, 24, 2, 32, 1], requestTo 7 [2]),
    (minusOne, requestTo (-1) [5])]

/-- A message from the broker, alone in memory. -/
def oneMsg (bytes : List UInt8) : Heap :=
  Heap.empty.newMsg
    { b := List.replicate 8 0 ++ bytes
      size := bytes.length + 8
      dataLen := bytes.length
      frameLen := bytes.length + 8 }

theorem held_oneMsg (bytes : List UInt8) : Held (oneMsg bytes) 0 := Held.newMsg _ _

/-- Of the targets 1, 2 and 1 only the user 1 is registered. -/
theorem Broker.processMsgPack_fanOut_three :
    ∃ j, Broker.processMsgPack requests 0 true
        (List.replicate 3 ⟨fun u => if u = 1 then some ⟨1, 0, 9, 0⟩ else none⟩)
        (start 0 (requestTo 7 [1, 2, 1]) (oneMsg threeTargets)) = some (0, j) ∧
      j.handed = [(.routed, [0, 2]), (.collected, [1])] := by
  obtain ⟨j, hj, hfan, -⟩ := Broker.processMsgPack_fanOut requests 0 true
    ⟨fun u => if u = 1 then some ⟨1, 0, 9, 0⟩ else none⟩
    (held_oneMsg threeTargets)
    (show parse requests ((oneMsg threeTargets).msg 0) =
      some ⟨(oneMsg threeTargets).msg 0, requestTo 7 [1, 2, 1]⟩ from rfl)
    (by decide) (by decide) (by decide +kernel)
  exact ⟨j, hj, hfan.handed.trans (by decide)⟩

/-- **A user that is present but -1** counts as missing: the pack is
refused, and no target gets a message. -/
theorem Broker.processMsgPack_noUser :
    ∃ (C : Codec) (H : Heap) (pack : IMessagePack), Held H 0 ∧ parse C (H.msg 0) = some pack ∧
      getMessagePackType pack = .msg ∧ (pack.content.msg.bind ImMsg.uid).isSome ∧
      (1 ≤ (targets pack.data).length ∧ (targets pack.data).length ≤ TARGET_MAX) ∧
      (∀ uid ∈ targets pack.data, C.Inverts (setTarget pack.data uid)) ∧
      ∀ type collects Ts, ∃ j, Broker.processMsgPack C type collects Ts (start 0 pack.data H) =
        some (-1, j) ∧ j.handed = [] := by
  refine ⟨requests, oneMsg minusOne, ⟨(oneMsg minusOne).msg 0, requestTo (-1) [5]⟩, held_oneMsg _,
    rfl, rfl, rfl, by decide, by decide +kernel, ?_⟩
  intro type collects Ts
  exact ⟨_, rfl, rfl⟩

/-! ### The message that came in -/

theorem sum_count_handOver (m : Manner) (l : List Addr) :
    ((handOver m l).map fun h => h.2.count v).sum = l.count v := by
  cases l <;> simp

/-- The message that came in is the first of the copies, so it is in one of the
two lists. -/
theorem FanOut.times {chs : List IoChannel} {j : Job} (h : FanOut C collects data v H chs j)
    (hlen : (copies v H (targets data).length).length = chs.length) : j.times v = 1 := by
  rw [Job.times, h.handed, List.map_append, List.sum_append, sum_count_handOver,
    sum_count_handOver, count_registered_add v hlen]
  exact List.count_eq_one_of_mem h.nodup List.mem_cons_self

theorem Broker.consumed_error (data : ImPack) :
    Consumed v .released (Broker.finish v (-1, start v data H)) := by
  refine ⟨?_, fun _ => rfl⟩
  show times v (Job.give _ _ [v]) = 1
  simp

/-- **`MessageBrokerProcessor::process`** disposes of its message once. -/
theorem Broker.process_consumed (hv : Held H v) {Ts : List ImUserChannelRegisterTableLocal}
    (hTs : ∀ pack, parse C (H.msg v) = some pack → (targets pack.data).length ≤ Ts.length) :
    ∃ r, Broker.process C type collects Ts v H = some r ∧ Consumed v .released r := by
  unfold Broker.process
  rcases hparse : parse C (H.msg v) with - | pack
  · exact ⟨_, rfl, Broker.consumed_error {}⟩
  · have hhandler : ∃ r, Broker.processMsgPack C type collects Ts (start v pack.data H) = some r ∧
        Consumed v .released (Broker.finish v r) := by
      by_cases huid : getMsgPackUser ⟨H.msg v, pack.data⟩ = -1
      · refine ⟨(-1, start v pack.data H), ?_, Broker.consumed_error pack.data⟩
        unfold Broker.processMsgPack
        rw [pack_eq rfl, Option.bind_some]
        exact if_pos huid
      · by_cases htargets : targets pack.data = []
        · refine ⟨(-1, start v pack.data H), ?_, Broker.consumed_error pack.data⟩
          have hnone : (start v pack.data H).createLocalMsgPack C type =
              some (none, start v pack.data H) := by
            unfold createLocalMsgPack
            rw [show targets (start v pack.data H).data = [] from htargets]
          unfold Broker.processMsgPack
          rw [pack_eq rfl, Option.bind_some, hnone]
          exact if_neg huid
        · obtain ⟨j, hj, hfan⟩ := Broker.processMsgPack_fansOut C type collects hv huid htargets
            (hTs pack hparse)
          refine ⟨_, hj, hfan.times C collects ?_, fun hne => absurd rfl hne⟩
          rw [length_copies (by simpa using htargets), List.length_zipWith]
          exact (min_eq_left (hTs pack hparse)).symm
    obtain ⟨r, hr, hconsumed⟩ := hhandler
    rcases htype : getMessagePackType pack <;> simp only [htype]
    case msg => exact ⟨_, by rw [hr]; rfl, hconsumed⟩
    all_goals exact ⟨_, rfl, Broker.consumed_error pack.data⟩

end Job

end Xkim
