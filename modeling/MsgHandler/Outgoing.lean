/-
MsgHandler/Outgoing.lean

The bytes that a connection sends (`IoConnection::writeSocket`,
`IoAppConnection::pushMsgData`).

Messages are pushed to a connection while others are being written, and `send`
takes any part of what it is offered.  The message being written is
`_current_push`, outside of the push list, and the write event is set by a push
and taken off by a write that finds nothing more to do.

Whatever the order of pushes and writes, the bytes accepted so far are those of
the frames written completely and a proper part of the current one, and the
write event is set as long as there is something to send
(`always_faithful`).  The invariant `Sending` says where each pushed message
is: written and released, current, or in the list.

Pushing and writing do not use the collector, so what `Pending` shows of the
memory of a connection is used for a world with an empty one.
-/
import MsgHandler.IoApp
import MsgHandler.Pending
import MsgHandler.Run

namespace Xkim

open IoPushList (msgOf)

variable {ω : Type}

/-! ### Pushes and writes on one connection -/

/-- `IoApp::Impl::pushMessage(msg)`, once the connection has been found. -/
def pushTo (m : Ctx Addr (AppWorld ω)) (v : Addr) : Ctx Addr (AppWorld ω) :=
  let msg := m.app.heap.msg v
  let state := if msg.switchState then msg.state else m.app.conn.state
  let w := { m.app with conn := { m.app.conn with state := state } }
  { m with conn := m.conn.setWrite, app := w.pushMsgData v }

theorem IoApp.pushMessage_eq {s : IoApp} {v : Addr} {o : Obj}
    (h : s.owner.onlineRegister.get (s.heap.msg v).conn = some o) :
    s.pushMessage v = s.after o (pushTo (s.ctx o [] true) v) := by
  unfold IoApp.pushMessage
  simp only [h]
  rfl

/-- The bytes that `send` has accepted. -/
def sentBytes (trace : List Act) : List UInt8 :=
  trace.flatMap fun
    | .send bytes => bytes
    | _ => []

theorem sentBytes_send (trace : List Act) (bytes : List UInt8) :
    sentBytes (trace ++ [.send bytes]) = sentBytes trace ++ bytes := by
  simp [sentBytes]

/-- The frame of a message: the first `_frame_len` bytes of `_b`. -/
def frameOf (H : Heap) (v : Addr) : List UInt8 := (H.msg v).b.take (H.msg v).frameLen.toNat

/-- A message with a frame of at least 8 bytes that does not ask to close the
connection. -/
structure Plain (msg : IMessage) : Prop where
  stays : msg.closeConn = false
  header : 8 ≤ msg.frameLen
  frame : msg.frameLen ≤ msg.b.length

theorem plain_iff {msg : IMessage} : Plain msg ↔
    msg.closeConn = false ∧ 8 ≤ msg.frameLen ∧ msg.frameLen ≤ msg.b.length :=
  ⟨fun h => ⟨h.stays, h.header, h.frame⟩, fun h => ⟨h.1, h.2.1, h.2.2⟩⟩

instance (msg : IMessage) : Decidable (Plain msg) := decidable_of_iff _ plain_iff.symm

/-- A connection, and the messages pushed to it so far. -/
structure Outlet (ω : Type) where
  ctx : Ctx Addr (AppWorld ω)
  pushed : List Addr

namespace Outlet

inductive Event
  | push (v : Addr)
  | write (connected : Bool) (sends : List SendChoice)

/-- A connection that has just been initialised. -/
def start (c : IoConnection Addr) (fd io : ℤ) (id : ℕ) (w : AppWorld ω) (alloc : Bool)
    (stream : List UInt8) : Outlet ω :=
  ⟨accepted (c.initializeConn fd io id) w alloc stream, []⟩

def step (destroy : ℕ → ω → ω) (s : Outlet ω) : Event → Option (Outlet ω)
  | .push v => some ⟨pushTo s.ctx v, s.pushed ++ [v]⟩
  | .write connected sends =>
    some ⟨writeSocket (appHooks destroy) connected sends s.ctx, s.pushed⟩

/-- A message in memory is pushed once, and it is plain; `send` does not fail. -/
def Allowed (s : Outlet ω) : Event → Prop
  | .push v => v < s.ctx.app.heap.brk ∧ v ∉ s.pushed ∧ Plain (s.ctx.app.heap.msg v)
  | .write _ sends => SendChoice.error ∉ sends

instance (s : Outlet ω) : ∀ e, Decidable (s.Allowed e)
  | .push v => inferInstanceAs (Decidable (_ ∧ v ∉ s.pushed ∧ Plain _))
  | .write _ sends => inferInstanceAs (Decidable (SendChoice.error ∉ sends))

/-- The bytes accepted so far. -/
def sent (s : Outlet ω) : List UInt8 := sentBytes s.ctx.trace

/-- The frames of messages, one after the other. -/
def frames (s : Outlet ω) (vs : List Addr) : List UInt8 :=
  vs.flatMap (frameOf s.ctx.app.heap)

/-- **The stream is faithful and does not stall**; `rel` is what had been released
before. -/
structure Faithful (rel : List Addr) (s : Outlet ω) : Prop where
  live : s.ctx.conn.destroy = false
  stream : s.sent <+: s.frames s.pushed
  /-- A message is pushed once, so it is once among the released ones, -/
  once : s.pushed.Nodup
  /-- which are those whose last byte has been accepted. -/
  released : ∃ k, s.ctx.app.heap.released = rel ++ s.pushed.take k ∧
    ∀ i < s.pushed.length, i < k ↔ (s.frames (s.pushed.take (i + 1))).length ≤ s.sent.length
  armed : s.ctx.conn.currentPush ≠ none ∨ s.ctx.app.conn.pushBuffer.links.head ≠ none →
    s.ctx.conn.wevent = true
  /-- What has not been sent is waiting. -/
  waiting : s.sent ≠ s.frames s.pushed →
    s.ctx.conn.currentPush ≠ none ∨ s.ctx.app.conn.pushBuffer.links.head ≠ none

end Outlet

/-! ### Where the messages are -/

/-- The same world with an empty collector. -/
def AppWorld.alone (w : AppWorld ω) : AppWorld ω :=
  { w with collector := some MsMessageBlockQueue.empty }

/-- The part of the current frame that has been sent. -/
def sentPart (H : Heap) : Option Addr → List UInt8
  | none => []
  | some p => (frameOf H (msgOf H p)).take (H.pd p).wpos.toNat

theorem frameOf_congr {H H' : Heap} (hmsg : H'.msg = H.msg) : frameOf H' = frameOf H := by
  funext v
  rw [frameOf, frameOf, hmsg]

theorem sentPart_congr {H H' : Heap} {cur : Option Addr} (hmsg : H'.msg = H.msg)
    (hpd : ∀ p ∈ cur, H'.pd p = H.pd p) : sentPart H' cur = sentPart H cur := by
  cases cur with
  | none => rfl
  | some p => simp only [sentPart, frameOf, msgOf, hmsg, hpd p rfl]

/-- The messages `pushed` are, in this order, the ones in `written`, the one of the push
datum `cur`, and the ones of the push data `ds` in the list. -/
structure Sending (rel pushed : List Addr) (cur : Option Addr) (w : AppWorld ω)
    (sent : List UInt8) (ds written : List Addr) : Prop where
  holds : Holds cur w.alone ds []
  order : pushed = written ++ Holds.pending cur w ds
  released : w.heap.released = rel ++ written
  sized : ∀ d ∈ cur.toList ++ ds, (w.heap.pd d).wsize = (w.heap.msg (msgOf w.heap d)).frameLen
  fresh : ∀ d ∈ ds, (w.heap.pd d).wpos = 0
  begun : ∀ p ∈ cur, 0 ≤ (w.heap.pd p).wpos ∧ (w.heap.pd p).wpos < (w.heap.pd p).wsize
  bytes : sent = written.flatMap (frameOf w.heap) ++ sentPart w.heap cur
  plain : ∀ v ∈ pushed, Plain (w.heap.msg v)
  nodup : pushed.Nodup

section Sending

variable {rel pushed : List Addr} {cur : Option Addr} {w : AppWorld ω} {sent : List UInt8}
  {ds written : List Addr} {p : Addr}

/-- The message of a push datum that is held is plain. -/
theorem Sending.plain_msg (h : Sending rel pushed cur w sent ds written) {d : Addr}
    (hd : d ∈ cur.toList ++ ds) : Plain (w.heap.msg (msgOf w.heap d)) := by
  refine h.plain _ ?_
  rw [h.order]
  exact List.mem_append_right _ (List.mem_map_of_mem hd)

/-- The current message is not in the list. -/
theorem Sending.ne_current (h : Sending rel pushed (some p) w sent ds written) {d : Addr}
    (hd : d ∈ ds) : d ≠ p := by
  rintro rfl
  exact (List.nodup_cons.mp h.holds.nodup).1 hd

/-- The state of the connection has nothing to do with its messages. -/
theorem Sending.setState (h : Sending rel pushed cur w sent ds written) (state : ℤ) :
    Sending rel pushed cur { w with conn := { w.conn with state := state } } sent ds written :=
  ⟨⟨h.holds.list, h.holds.nodup, h.holds.bound, h.holds.msgs, h.holds.back, h.holds.queue,
    h.holds.apart, h.holds.queueBound⟩, h.order, h.released, h.sized, h.fresh, h.begun, h.bytes,
    h.plain, h.nodup⟩

/-- **A push** puts the message behind all others. -/
theorem Sending.push (h : Sending rel pushed cur w sent ds written) {v : Addr}
    (hv : v < w.heap.brk) (hnew : v ∉ pushed) (hplain : Plain (w.heap.msg v)) :
    Sending rel (pushed ++ [v]) cur (w.pushMsgData v) sent (ds ++ [w.heap.pdBrk]) written := by
  have hfree : v ∉ Holds.pending cur w ds := by
    intro hmem
    rw [h.order] at hnew
    exact hnew (List.mem_append_right _ hmem)
  obtain ⟨hholds, hpend⟩ := h.holds.pushMsgData hv hfree (fun hq => nomatch hq)
  -- the push data that were there before are untouched
  have hold : ∀ d ∈ cur.toList ++ ds, (w.pushMsgData v).heap.pd d = w.heap.pd d :=
    fun d hd => Function.update_of_ne (h.holds.bound d hd).1.ne ..
  have hpd : (w.pushMsgData v).heap.pd w.heap.pdBrk = ⟨v, (w.heap.msg v).frameLen, 0⟩ :=
    Function.update_self ..
  have hcases : ∀ d ∈ cur.toList ++ (ds ++ [w.heap.pdBrk]),
      d ∈ cur.toList ++ ds ∨ d = w.heap.pdBrk := by
    intro d hd
    rw [← List.append_assoc] at hd
    exact (List.mem_append.mp hd).imp id List.mem_singleton.mp
  refine ⟨hholds, ?_, h.released, ?_, ?_, ?_, ?_, ?_, ?_⟩
  · rw [h.order, List.append_assoc]
    exact congrArg (written ++ ·) hpend.symm
  · intro d hd
    rcases hcases d hd with hd | rfl
    · rw [msgOf, hold d hd]
      exact h.sized d hd
    · rw [msgOf, hpd]
      rfl
  · intro d hd
    rcases List.mem_append.mp hd with hd | hd
    · rw [hold d (List.mem_append_right _ hd)]
      exact h.fresh d hd
    · rw [List.mem_singleton.mp hd, hpd]
  · intro p hp
    rw [hold p (List.mem_append_left _ (Option.mem_toList.mpr hp))]
    exact h.begun p hp
  · have hpart : sentPart (w.pushMsgData v).heap cur = sentPart w.heap cur :=
      sentPart_congr rfl fun p hp => hold p (List.mem_append_left _ (Option.mem_toList.mpr hp))
    rw [hpart]
    exact h.bytes
  · intro u hu
    rcases List.mem_append.mp hu with hu | hu
    · exact h.plain u hu
    · rw [List.mem_singleton.mp hu]
      exact hplain
  · rw [← List.concat_eq_append]
    exact h.nodup.concat hnew

/-- **The next message** to be sent is the first in the list. -/
theorem Sending.getPushData {d : Addr} (h : Sending rel pushed none w sent (d :: ds) written) :
    w.getPushData.1 = some d ∧
      Sending rel pushed (some d) w.getPushData.2 sent ds written := by
  obtain ⟨hget, hholds, hpend, hreleased⟩ := h.holds.getPushData
  obtain ⟨next, pdNext, hheap⟩ := w.getPushData_heap
  have hpd : w.getPushData.2.heap.pd = w.heap.pd := by rw [hheap]
  have hmsg : w.getPushData.2.heap.msg = w.heap.msg := by rw [hheap]
  have hplain := h.plain_msg (List.mem_cons_self : d ∈ none.toList ++ d :: ds)
  have hfresh := h.fresh d List.mem_cons_self
  have hsize := h.sized d List.mem_cons_self
  refine ⟨hget, hholds, ?_, hreleased.trans h.released, ?_, ?_, ?_, ?_, ?_, h.nodup⟩
  · rw [h.order]
    exact congrArg (written ++ ·) hpend.symm
  · intro e he
    rw [msgOf, hpd, hmsg]
    exact h.sized e he
  · intro e he
    rw [hpd]
    exact h.fresh e (List.mem_cons_of_mem _ he)
  · intro e he
    obtain rfl := Option.mem_some_iff.mp he
    rw [hpd, hfresh, hsize]
    exact ⟨le_rfl, lt_of_lt_of_le (by norm_num) hplain.header⟩
  · -- nothing of it has been sent
    have hpart : sentPart w.getPushData.2.heap (some d) = [] := by
      rw [sentPart, hpd, hfresh]
      rfl
    rw [hpart, h.bytes, frameOf_congr hmsg]
    rfl
  · rw [hmsg]
    exact h.plain

/-- What has been sent of the current frame, when `n` more bytes are accepted. -/
theorem Sending.part_append (h : Sending rel pushed (some p) w sent ds written) {n : ℕ}
    (hn : (n : ℤ) ≤ (w.heap.pd p).wsize - (w.heap.pd p).wpos) :
    (frameOf w.heap (msgOf w.heap p)).take ((w.heap.pd p).wpos + n).toNat =
      sentPart w.heap (some p) ++
        slice (w.heap.msg (msgOf w.heap p)).b (w.heap.pd p).wpos n := by
  obtain ⟨hpos, hlt⟩ := h.begun p rfl
  have hsize := h.sized p List.mem_cons_self
  obtain ⟨k, hk⟩ := Int.eq_ofNat_of_zero_le hpos
  have hfit : k + n ≤ (w.heap.msg (msgOf w.heap p)).frameLen.toNat := by
    rw [← hsize]
    omega
  rw [sentPart, hk]
  simp only [frameOf, slice, Int.toNat_natCast, List.take_take]
  rw [show ((k : ℤ) + n).toNat = k + n by omega, Nat.min_eq_left hfit,
    Nat.min_eq_left (by omega : k ≤ _), List.take_add]

/-- `_wpos` of the current push datum moves on. -/
theorem setWpos_pd (k : ℤ) (d : Addr) :
    (AppWorld.setWpos p k w).heap.pd d =
      if d = p then { w.heap.pd p with wpos := k } else w.heap.pd d := by
  show Function.update w.heap.pd p _ d = _
  rw [Function.update_apply]

/-- **A part of the frame is accepted**, and the message stays the current one. -/
theorem Sending.partly (h : Sending rel pushed (some p) w sent ds written) {n : ℕ}
    (hn : (n : ℤ) < (w.heap.pd p).wsize - (w.heap.pd p).wpos) :
    Sending rel pushed (some p) (AppWorld.setWpos p ((w.heap.pd p).wpos + n) w)
      (sent ++ slice (w.heap.msg (msgOf w.heap p)).b (w.heap.pd p).wpos n) ds written := by
  obtain ⟨hholds, hpend⟩ := h.holds.setWpos ((w.heap.pd p).wpos + n)
  obtain ⟨hpos, -⟩ := h.begun p rfl
  refine ⟨hholds, ?_, h.released, ?_, ?_, ?_, ?_, h.plain, h.nodup⟩
  · rw [h.order]
    exact congrArg (written ++ ·) hpend.symm
  · intro d hd
    have hsize := h.sized d hd
    rw [msgOf, setWpos_pd]
    split_ifs with hdp
    · rw [hdp] at hsize
      exact hsize
    · exact hsize
  · intro d hd
    rw [setWpos_pd, if_neg (h.ne_current hd)]
    exact h.fresh d hd
  · intro e he
    obtain rfl := Option.mem_some_iff.mp he
    rw [setWpos_pd, if_pos rfl]
    show 0 ≤ (w.heap.pd p).wpos + n ∧ (w.heap.pd p).wpos + n < (w.heap.pd p).wsize
    omega
  · have hpart : sentPart (AppWorld.setWpos p ((w.heap.pd p).wpos + n) w).heap (some p) =
        (frameOf w.heap (msgOf w.heap p)).take ((w.heap.pd p).wpos + n).toNat := by
      rw [sentPart, msgOf, setWpos_pd, if_pos rfl]
      rfl
    rw [hpart, h.part_append hn.le, h.bytes, List.append_assoc]
    rfl

/-- **The last part of the frame is accepted**, and the message is released. -/
theorem Sending.wholly (h : Sending rel pushed (some p) w sent ds written) {n : ℕ}
    (hn : (n : ℤ) = (w.heap.pd p).wsize - (w.heap.pd p).wpos) :
    Sending rel pushed none
      (AppWorld.destroyMsgData p (AppWorld.setWpos p ((w.heap.pd p).wpos + n) w))
      (sent ++ slice (w.heap.msg (msgOf w.heap p)).b (w.heap.pd p).wpos n) ds
      (written ++ [msgOf w.heap p]) := by
  obtain ⟨hholds, hpend⟩ := h.holds.setWpos ((w.heap.pd p).wpos + n)
  obtain ⟨hmsgp, hrest⟩ : msgOf (AppWorld.setWpos p ((w.heap.pd p).wpos + n) w).heap p =
      msgOf w.heap p ∧ ds.map (msgOf (AppWorld.setWpos p ((w.heap.pd p).wpos + n) w).heap) =
        ds.map (msgOf w.heap) := List.cons.inj hpend
  have hpd : ∀ d ∈ ds,
      (AppWorld.setWpos p ((w.heap.pd p).wpos + n) w).heap.pd d = w.heap.pd d := by
    intro d hd
    rw [setWpos_pd, if_neg (h.ne_current hd)]
  refine ⟨hholds.destroyMsgData, ?_, ?_, ?_, ?_, (fun q hq => nomatch hq), ?_, h.plain, h.nodup⟩
  · rw [h.order, List.append_assoc]
    exact congrArg (fun l => written ++ msgOf w.heap p :: l) hrest.symm
  · show w.heap.released ++ [msgOf (AppWorld.setWpos p _ w).heap p] = _
    rw [hmsgp, h.released, List.append_assoc]
  · intro d hd
    have hsize := h.sized d (List.mem_cons_of_mem _ hd)
    show ((AppWorld.setWpos p _ w).heap.pd d).wsize =
      (w.heap.msg ((AppWorld.setWpos p _ w).heap.pd d).msg).frameLen
    rw [hpd d hd]
    exact hsize
  · intro d hd
    show ((AppWorld.setWpos p _ w).heap.pd d).wpos = 0
    rw [hpd d hd]
    exact h.fresh d hd
  · -- with these bytes the frame is complete
    have hfull : (frameOf w.heap (msgOf w.heap p)).take ((w.heap.pd p).wpos + n).toNat =
        frameOf w.heap (msgOf w.heap p) := by
      rw [hn, add_sub_cancel, h.sized p List.mem_cons_self, frameOf, List.take_take, Nat.min_self]
    rw [h.bytes, List.append_assoc, ← h.part_append hn.le, hfull, List.flatMap_append,
      List.flatMap_singleton, sentPart, List.append_nil]
    rfl

end Sending

/-! ### Write events -/

/-- What holds of an open connection between its events. -/
structure Outgoing (rel pushed : List Addr) (m : Ctx Addr (AppWorld ω)) : Prop where
  sending : ∃ ds written,
    Sending rel pushed m.conn.currentPush m.app (sentBytes m.trace) ds written ∧
      (m.conn.currentPush ≠ none ∨ ds ≠ [] → m.conn.wevent = true)
  state : m.conn.wsockState = .dataWrite
  live : m.conn.destroy = false

section Writing

variable (destroy : ℕ → ω → ω) {rel pushed ds written : List Addr}
  {m : Ctx Addr (AppWorld ω)} {p : Addr}

/-- The next message becomes the current one; the write event is taken off only if there
is none. -/
theorem nextPush_outgoing (h : Sending rel pushed none m.app (sentBytes m.trace) ds written)
    (harmed : ds ≠ [] → m.conn.wevent = true) (hstate : m.conn.wsockState = .dataWrite)
    (hlive : m.conn.destroy = false) : Outgoing rel pushed (nextPush (appHooks destroy) m) := by
  cases ds with
  | nil =>
    have hlist : m.app.conn.pushBuffer.Rep m.app.heap [] := h.holds.list
    have hget : m.app.getPushData = (none, m.app) := by
      rw [AppWorld.getPushData, hlist.get_nil]
    rw [nextPush_none destroy hget]
    exact ⟨⟨[], written, h, fun hsome => (hsome.elim (· rfl) (· rfl)).elim⟩, hstate, hlive⟩
  | cons d ds =>
    obtain ⟨hget, hnext⟩ := h.getPushData
    rw [nextPush_some destroy hget]
    exact ⟨⟨ds, written, hnext, fun _ => harmed (List.cons_ne_nil d ds)⟩, hstate, hlive⟩

/-- `send` accepts `k` bytes of the current message. -/
theorem put_outgoing (hp : m.conn.currentPush = some p) (h : Outgoing rel pushed m)
    (hsend : Sending rel pushed (some p) m.app (sentBytes m.trace) ds written)
    (hwevent : m.conn.wevent = true) {k : ℕ}
    (hk : (k : ℤ) ≤ (m.app.heap.pd p).wsize - (m.app.heap.pd p).wpos) :
    let m' : Ctx Addr (AppWorld ω) :=
      { m.log (.send (slice (m.app.heap.msg (msgOf m.app.heap p)).b (m.app.heap.pd p).wpos k)) with
        app := AppWorld.setWpos p ((m.app.heap.pd p).wpos + k) m.app }
    Outgoing rel pushed
      (if (m.app.heap.pd p).wsize - (m.app.heap.pd p).wpos - k = 0 then
        nextPush (appHooks destroy) { m' with app := AppWorld.destroyMsgData p m'.app }
      else m') := by
  intro m'
  have hsent := sentBytes_send m.trace
    (slice (m.app.heap.msg (msgOf m.app.heap p)).b (m.app.heap.pd p).wpos k)
  split_ifs with hdone
  · have hnext := hsend.wholly (n := k) (by omega)
    rw [← hsent] at hnext
    exact nextPush_outgoing destroy hnext (fun _ => hwevent) h.state h.live
  · have hstay := hsend.partly (n := k) (by omega)
    rw [← hsent, ← hp] at hstay
    exact ⟨⟨ds, written, hstay, fun _ => hwevent⟩, h.state, h.live⟩

/-- The `send` loop; the induction is on the answers, as `EINTR` repeats the call. -/
theorem sendLoop_outgoing {cs : List SendChoice} (hcs : SendChoice.error ∉ cs)
    (hp : m.conn.currentPush = some p) (h : Outgoing rel pushed m) :
    Outgoing rel pushed (sendLoop (appHooks destroy) p cs m) := by
  obtain ⟨ds, written, hsend, harmed⟩ := h.sending
  have hwevent := harmed (Or.inl (by rw [hp]; exact Option.some_ne_none p))
  rw [hp] at hsend
  obtain ⟨hpos, hlt⟩ := hsend.begun p rfl
  have hleft : 0 < (m.app.heap.pd p).wsize - (m.app.heap.pd p).wpos := sub_pos.mpr hlt
  induction cs with
  | nil =>
    unfold sendLoop
    exact (if_pos hleft).symm ▸ h
  | cons c cs ih =>
    rw [List.mem_cons, not_or] at hcs
    unfold sendLoop
    dsimp only
    rw [if_pos (show ((appHooks destroy).view p m.app).wsize -
      ((appHooks destroy).view p m.app).wpos > 0 from hleft)]
    cases c with
    | eintr => exact ih hcs.2
    | eagain | zero => exact h
    | error => exact absurd rfl hcs.1
    | put n =>
      have hmin : ∀ left : ℤ, 0 < left → ((min (n + 1) left.toNat : ℕ) : ℤ) ≤ left := by
        intro left hpos
        omega
      exact put_outgoing destroy hp h hsend hwevent (hmin _ hleft)

theorem writeCurrent_outgoing {sends : List SendChoice} (hsends : SendChoice.error ∉ sends)
    (h : Outgoing rel pushed m) :
    Outgoing rel pushed (writeCurrent (appHooks destroy) sends m) := by
  unfold writeCurrent
  split
  · exact h
  · rename_i p hp
    obtain ⟨ds, written, hsend, -⟩ := h.sending
    rw [hp] at hsend
    have hopen : ((appHooks destroy).view p m.app).closeConn = false :=
      (hsend.plain_msg List.mem_cons_self).stays
    rw [hopen]
    exact sendLoop_outgoing destroy hsends hp h

/-- **A write event** keeps the invariant. -/
theorem writeSocket_outgoing (connected : Bool) {sends : List SendChoice}
    (hsends : SendChoice.error ∉ sends) (h : Outgoing rel pushed m) :
    Outgoing rel pushed (writeSocket (appHooks destroy) connected sends m) := by
  unfold writeSocket
  rw [h.state]
  show Outgoing rel pushed (dataWrite (appHooks destroy) sends m)
  unfold dataWrite
  split
  · exact writeCurrent_outgoing destroy hsends h
  · rename_i hp
    obtain ⟨ds, written, hsend, harmed⟩ := h.sending
    rw [hp] at hsend
    exact writeCurrent_outgoing destroy hsends
      (nextPush_outgoing destroy hsend (fun hne => harmed (Or.inr hne)) h.state h.live)

/-- **A push** keeps the invariant, and sets the write event. -/
theorem pushTo_outgoing (h : Outgoing rel pushed m) {v : Addr} (hv : v < m.app.heap.brk)
    (hnew : v ∉ pushed) (hplain : Plain (m.app.heap.msg v)) :
    Outgoing rel (pushed ++ [v]) (pushTo m v) := by
  obtain ⟨ds, written, hsend, -⟩ := h.sending
  have hset : m.conn.setWrite = { m.conn with wevent := true } := by
    rw [IoConnection.setWrite, if_neg (by rw [h.state]; decide)]
  rw [pushTo, hset]
  exact ⟨⟨ds ++ [m.app.heap.pdBrk], written, (hsend.setState _).push hv hnew hplain,
    fun _ => rfl⟩, h.state, h.live⟩

end Writing

/-! ### Whole runs -/

section Stream

variable {rel pushed : List Addr} {cur : Option Addr} {w : AppWorld ω} {sent : List UInt8}
  {ds written : List Addr}

theorem Plain.length_frame {H : Heap} {v : Addr} (h : Plain (H.msg v)) :
    ((frameOf H v).length : ℤ) = (H.msg v).frameLen := by
  have hframe := h.frame
  have hheader := h.header
  rw [frameOf, List.length_take, Nat.min_eq_left (by omega)]
  omega

/-- The first message that is not released has not been sent completely. -/
theorem Sending.part_lt (h : Sending rel pushed cur w sent ds written) {v : Addr}
    {vs : List Addr} (hv : Holds.pending cur w ds = v :: vs) :
    sentPart w.heap cur <+: frameOf w.heap v ∧
      (sentPart w.heap cur).length < (frameOf w.heap v).length := by
  have hplain : Plain (w.heap.msg v) := by
    refine h.plain v ?_
    rw [h.order, hv]
    exact List.mem_append_right _ List.mem_cons_self
  have hlen := hplain.length_frame
  have hheader := hplain.header
  cases cur with
  | none =>
    refine ⟨List.nil_prefix, ?_⟩
    show 0 < (frameOf w.heap v).length
    omega
  | some p =>
    obtain ⟨rfl, -⟩ := List.cons.inj hv
    obtain ⟨hpos, hlt⟩ := h.begun p rfl
    have hsize := h.sized p List.mem_cons_self
    refine ⟨List.take_prefix _ _, ?_⟩
    show ((frameOf w.heap (msgOf w.heap p)).take _).length < _
    rw [List.length_take]
    omega

/-- The bytes sent are the frames of the messages released and a part of the next one. -/
theorem Sending.stream (h : Sending rel pushed cur w sent ds written) :
    sent <+: pushed.flatMap (frameOf w.heap) := by
  rw [h.bytes, h.order, List.flatMap_append, List.prefix_append_right_inj]
  cases hv : Holds.pending cur w ds with
  | nil =>
    cases cur with
    | none => exact List.nil_prefix
    | some p => cases hv
  | cons v vs =>
    rw [List.flatMap_cons]
    exact (h.part_lt hv).1.trans (List.prefix_append _ _)

/-- **The released messages** are those whose last byte has been sent. -/
theorem Sending.released_iff (h : Sending rel pushed cur w sent ds written) {i : ℕ}
    (hi : i < pushed.length) :
    i < written.length ↔
      ((pushed.take (i + 1)).flatMap (frameOf w.heap)).length ≤ sent.length := by
  constructor
  · intro hlt
    rw [h.bytes, h.order, List.take_append_of_le_length hlt, List.length_append]
    have hpre : (written.take (i + 1)).flatMap (frameOf w.heap) <+:
        written.flatMap (frameOf w.heap) :=
      (List.take_prefix (i + 1) written).flatMap _
    exact hpre.length_le.trans (Nat.le_add_right _ _)
  · intro hle
    by_contra hge
    -- the first message that is not released is among these
    cases hv : Holds.pending cur w ds with
    | nil =>
      rw [h.order, hv, List.append_nil] at hi
      exact hge hi
    | cons v vs =>
      have hpre : (written ++ [v]).flatMap (frameOf w.heap) <+:
          (pushed.take (i + 1)).flatMap (frameOf w.heap) := by
        refine List.IsPrefix.flatMap ?_ _
        rw [h.order, hv, List.prefix_take_iff]
        refine ⟨⟨vs, by simp⟩, ?_⟩
        rw [List.length_append, List.length_singleton]
        omega
      have hlen := hpre.length_le.trans hle
      rw [h.bytes, List.flatMap_append, List.flatMap_singleton, List.length_append,
        List.length_append] at hlen
      have hpart := (h.part_lt hv).2
      omega

end Stream

namespace Outlet

variable {rel : List Addr} {s : Outlet ω}

/-- The invariant says what is promised of the stream. -/
theorem faithful_of_outgoing (h : Outgoing rel s.pushed s.ctx) : s.Faithful rel := by
  obtain ⟨ds, written, hsend, harmed⟩ := h.sending
  have hhead : s.ctx.app.conn.pushBuffer.links.head = ds.head? := hsend.holds.list.links.head_eq
  refine ⟨h.live, hsend.stream, hsend.nodup, ⟨written.length, ?_, ?_⟩, ?_, ?_⟩
  · rw [hsend.released, hsend.order, List.take_left]
  · exact fun i hi => hsend.released_iff hi
  · rintro (hcur | hlist)
    · exact harmed (Or.inl hcur)
    · refine harmed (Or.inr ?_)
      rintro rfl
      exact hlist hhead
  · intro hne
    by_contra hnone
    rw [not_or, not_not, not_not, hhead, List.head?_eq_none_iff] at hnone
    obtain ⟨hcur, rfl⟩ := hnone
    have hbytes := hsend.bytes
    have horder := hsend.order
    rw [hcur] at hbytes horder
    refine hne (hbytes.trans ?_)
    rw [frames, horder]
    simp [sentPart, Holds.pending]

theorem outgoing_start (c : IoConnection Addr) (fd io : ℤ) (id : ℕ) {a : IoAppConnection}
    (H : Heap) (collector : Option MsMessageBlockQueue) (clock : ℕ → ℤ) (o : ω) (alloc : Bool)
    (stream : List UInt8) (hbuf : a.pushBuffer = IoPushList.empty) :
    Outgoing H.released [] (start c fd io id (AppWorld.start a io id H collector clock o) alloc
      stream).ctx := by
  have hlist : a.pushBuffer.Rep H [] := by
    rw [hbuf]
    exact IoPushList.rep_empty
  have hholds : Holds none (AppWorld.start a io id H collector clock o).alone [] [] :=
    ⟨hlist, List.nodup_nil, (fun d hd => nomatch hd), List.nodup_nil, rfl,
      ⟨_, rfl, MsMessageBlockQueue.rep_empty⟩, (fun d hd => nomatch hd), fun v hv => nomatch hv⟩
  refine ⟨⟨[], [], ⟨hholds, rfl, (List.append_nil _).symm, ?_, ?_, ?_, rfl, ?_, List.nodup_nil⟩,
    fun hsome => (hsome.elim (· rfl) (· rfl)).elim⟩, rfl, rfl⟩
  all_goals exact fun d hd => nomatch hd

/-- **The outgoing stream of a connection is faithful and does not stall**, in every state
of every interleaving of pushes and write events from its initialisation on. -/
theorem always_faithful (destroy : ℕ → ω → ω) (c : IoConnection Addr) (fd io : ℤ) (id : ℕ)
    (a : IoAppConnection) (H : Heap) (collector : Option MsMessageBlockQueue) (clock : ℕ → ℤ)
    (o : ω) (alloc : Bool) (stream : List UInt8) (hbuf : a.pushBuffer = IoPushList.empty)
    (es : List Event)
    (hes : Guarded (step destroy) Allowed
      (start c fd io id (AppWorld.start a io id H collector clock o) alloc stream) es) :
    Always (step destroy) (Faithful H.released)
      (start c fd io id (AppWorld.start a io id H collector clock o) alloc stream) es := by
  refine Always.of_guarded (I := fun s => Outgoing H.released s.pushed s.ctx) ?_
    (fun s hs => faithful_of_outgoing hs)
    (outgoing_start c fd io id H collector clock o alloc stream hbuf) hes
  intro s e s' hs hallowed hstep
  cases e with
  | push v =>
    obtain rfl := Option.some.inj hstep
    exact pushTo_outgoing hs hallowed.1 hallowed.2.1 hallowed.2.2
  | write connected sends =>
    obtain rfl := Option.some.inj hstep
    exact writeSocket_outgoing destroy connected hallowed hs

/-- A heap with two messages, of 8 and of 9 bytes. -/
def twoFrames : Heap :=
  { Heap.empty with
    msg := fun v =>
      if v = 0 then createIMessage [0, 0, 0, 8, 1, 2, 3, 4] 8
      else createIMessage [0, 0, 0, 9, 1, 2, 3, 4, 5] 9
    brk := 2 }

/-- The second message is pushed while the first is being written, and `send` takes three
bytes, is interrupted, and takes the rest. -/
def interleaved : List Event :=
  [.push 0, .write true [.put 2], .push 1, .write true [.eagain], .write true [.eintr, .put 9],
    .write true [.zero], .write true [.put 99], .write true []]

/-- Both frames are sent in order, and both messages are released. -/
theorem always_faithful_interleaved :
    Always (step fun _ o => o) (Faithful [])
        (start (IoConnection.new Addr) 5 0 1
          (AppWorld.start (IoAppConnection.new 0) 0 1 twoFrames none (fun _ => 0) ()) true [])
        interleaved ∧
      (runEvents (step fun _ o => o)
        (start (IoConnection.new Addr) 5 0 1
          (AppWorld.start (IoAppConnection.new 0) 0 1 twoFrames none (fun _ => 0) ()) true [])
        interleaved).map (fun s => (s.sent, s.ctx.app.heap.released, s.ctx.conn.wevent)) =
          some ([0, 0, 0, 8, 1, 2, 3, 4, 0, 0, 0, 9, 1, 2, 3, 4, 5], [0, 1], false) := by
  refine ⟨always_faithful (fun _ o => o) _ 5 0 1 _ twoFrames none _ () true [] rfl interleaved ?_,
    ?_⟩
  all_goals decide +kernel

end Outlet

end Xkim
