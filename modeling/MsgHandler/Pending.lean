/-
MsgHandler/Pending.lean

What becomes of the messages a connection has not written when it closes.

The messages pushed to a connection and not yet fully written are in
`_current_push` and in the push list, linked to each other through
`IMessage::_next`.  `whenClosed` puts the current one back to the front of
the list and hands the head of the chain to the collector, with `collect`.
But `collect` is `MsMessageBlockQueue::put`, which clears the link of the
message it is given: the collector gets the first message, and nothing
points to the others any more.

So a connection hands over everything it holds exactly when it holds at most
one message.  The invariant `Holds` describes the memory of a connection in
use; `Reached` are the states it gets into, together with the messages
pushed to it so far.
-/
import MsgHandler.AppConnection
import MsgHandler.Teardown

namespace Xkim

open IoPushList (msgOf)

variable {ω : Type}

/-! ### The memory of a connection -/

/-- The connection holds the push data `cur` (being written) and `ds` (in the
push list), with their messages, and the collector's queue holds `q`. -/
structure Holds (cur : Option Addr) (w : AppWorld ω) (ds q : List Addr) : Prop where
  list : w.conn.pushBuffer.Rep w.heap ds
  nodup : (cur.toList ++ ds).Nodup
  bound : ∀ d ∈ cur.toList ++ ds, d < w.heap.pdBrk ∧ msgOf w.heap d < w.heap.brk
  msgs : ((cur.toList ++ ds).map (msgOf w.heap)).Nodup
  back : w.conn.pendingData = none
  queue : ∃ Q, w.collector = some Q ∧ Q.Rep w.heap q
  apart : ∀ d ∈ cur.toList ++ ds, msgOf w.heap d ∉ q
  queueBound : ∀ v ∈ q, v < w.heap.brk

/-- The messages of the push data a connection holds. -/
def Holds.pending (cur : Option Addr) (w : AppWorld ω) (ds : List Addr) : List Addr :=
  (cur.toList ++ ds).map (msgOf w.heap)

variable {cur : Option Addr} {w w' : AppWorld ω} {ds q : List Addr}

/-- Memory the connection does not hold does not matter. -/
theorem Holds.congr (h : Holds cur w ds q) (hlist : w'.conn.pushBuffer = w.conn.pushBuffer)
    (hback : w'.conn.pendingData = w.conn.pendingData) (hq : w'.collector = w.collector)
    (hlinks : ∀ d ∈ ds, w'.heap.pdNext d = w.heap.pdNext d)
    (hmsg : ∀ d ∈ cur.toList ++ ds, msgOf w'.heap d = msgOf w.heap d)
    (hnext : ∀ v < w.heap.brk, w'.heap.next v = w.heap.next v)
    (hpd : w.heap.pdBrk ≤ w'.heap.pdBrk) (hbrk : w.heap.brk ≤ w'.heap.brk) :
    Holds cur w' ds q := by
  have hmap : (cur.toList ++ ds).map (msgOf w'.heap) = (cur.toList ++ ds).map (msgOf w.heap) :=
    List.map_congr_left hmsg
  refine ⟨?_, h.nodup, ?_, ?_, hback.trans h.back, ?_, ?_, ?_⟩
  · rw [hlist]
    refine h.list.congr hlinks (fun d hd => hmsg d (List.mem_append_right _ hd)) ?_ hpd
    exact fun d hd => hnext _ (h.bound d (List.mem_append_right _ hd)).2
  · intro d hd
    obtain ⟨hlt, hm⟩ := h.bound d hd
    exact ⟨hlt.trans_le hpd, by rw [hmsg d hd]; exact hm.trans_le hbrk⟩
  · rw [hmap]
    exact h.msgs
  · obtain ⟨Q, hQ, hrep⟩ := h.queue
    exact ⟨Q, hq.trans hQ, hrep.congr fun v hv => hnext v (h.queueBound v hv)⟩
  · intro d hd
    rw [hmsg d hd]
    exact h.apart d hd
  · exact fun v hv => (h.queueBound v hv).trans_le hbrk

/-! ### Frames, pushes and writes -/

/-- A frame that is received builds a message in fresh memory. -/
theorem Holds.whenReceivedFrame {mem : List UInt8} {b size r : ℤ} (h : Holds cur w ds q)
    (hcall : AppWorld.whenReceivedFrame mem b size w = some (r, w')) : Holds cur w' ds q := by
  have hsame : ∀ v < w.heap.brk, ∀ x, Function.update w.heap.next w.heap.brk x v =
      w.heap.next v := fun v hv x => Function.update_of_ne hv.ne ..
  rcases AppWorld.whenReceivedFrame_cases hcall with ⟨-, rfl | rfl⟩ | ⟨-, -, -, -, rfl⟩
  · exact h
  · exact h.congr rfl rfl rfl (fun _ _ => rfl) (fun _ _ => rfl) (fun _ _ => rfl) le_rfl le_rfl
  · exact h.congr rfl rfl rfl (fun _ _ => rfl) (fun _ _ => rfl) (fun v hv => hsame v hv none)
      le_rfl (Nat.le_succ _)

/-- The first half of `pushMsgData`: a push datum for `v` in fresh memory. -/
def AppWorld.newDatum (w : AppWorld ω) (v : Addr) : AppWorld ω :=
  { w with heap := { w.heap with
      pd := Function.update w.heap.pd w.heap.pdBrk ⟨v, (w.heap.msg v).frameLen, 0⟩
      pdNext := Function.update w.heap.pdNext w.heap.pdBrk none
      pdBrk := w.heap.pdBrk + 1 } }

/-- The second half: the push datum goes to the end of the list. -/
def AppWorld.linkDatum (w : AppWorld ω) (d : Addr) : AppWorld ω :=
  let r := w.conn.pushBuffer.put d w.heap
  { w with conn := { w.conn with pushBuffer := r.1 }, heap := r.2 }

theorem pushMsgData_eq (w : AppWorld ω) (v : Addr) :
    w.pushMsgData v = (w.newDatum v).linkDatum w.heap.pdBrk := rfl

theorem newDatum_msgOf (w : AppWorld ω) (v : Addr) :
    msgOf (w.newDatum v).heap w.heap.pdBrk = v := by
  show (Function.update w.heap.pd w.heap.pdBrk _ w.heap.pdBrk).msg = v
  rw [Function.update_self]

/-- Fresh memory is not held. -/
theorem Holds.newDatum (h : Holds cur w ds q) (v : Addr) :
    Holds cur (w.newDatum v) ds q ∧
      Holds.pending cur (w.newDatum v) ds = Holds.pending cur w ds := by
  have hnew : ∀ d ∈ cur.toList ++ ds, d ≠ w.heap.pdBrk := fun d hd => (h.bound d hd).1.ne
  have hmsg : ∀ d ∈ cur.toList ++ ds, msgOf (w.newDatum v).heap d = msgOf w.heap d :=
    fun d hd => congrArg IoPushData.msg (Function.update_of_ne (hnew d hd) ..)
  refine ⟨?_, List.map_congr_left hmsg⟩
  exact h.congr rfl rfl rfl
    (fun d hd => Function.update_of_ne (hnew d (List.mem_append_right _ hd)) ..) hmsg
    (fun _ _ => rfl) (Nat.le_succ _) le_rfl

theorem Holds.pending_linkDatum (cur : Option Addr) (w : AppWorld ω) (ds : List Addr) (d : Addr) :
    Holds.pending cur (w.linkDatum d) (ds ++ [d]) =
      Holds.pending cur w ds ++ [msgOf w.heap d] := by
  show (cur.toList ++ (ds ++ [d])).map (msgOf w.heap) = _
  rw [← List.append_assoc, List.map_append, List.map_singleton]
  rfl

/-- Linking a push datum leaves the links of the collector's queue alone. -/
theorem Holds.linkDatum_next {d : Addr} (h : Holds cur w ds q) (hq : msgOf w.heap d ∉ q) :
    ∀ a ∈ q, (w.linkDatum d).heap.next a = w.heap.next a := by
  intro a ha
  refine h.list.put_next ?_
  rw [List.map_append, List.mem_append, List.map_singleton, List.mem_singleton, not_or]
  refine ⟨?_, fun hav => hq (hav ▸ ha)⟩
  intro hmem
  obtain ⟨e, he, rfl⟩ := List.mem_map.mp hmem
  exact h.apart e (List.mem_append_right _ he) ha

/-- A push datum whose message is not in use can be linked. -/
theorem Holds.linkDatum {d : Addr} (h : Holds cur w ds q) (hd : d ∉ cur.toList ++ ds)
    (hlt : d < w.heap.pdBrk ∧ msgOf w.heap d < w.heap.brk)
    (hfree : msgOf w.heap d ∉ Holds.pending cur w ds) (hq : msgOf w.heap d ∉ q) :
    Holds cur (w.linkDatum d) (ds ++ [d]) q := by
  have hmem : msgOf w.heap d ∉ ds.map (msgOf w.heap) := by
    intro hmem
    obtain ⟨e, he, heq⟩ := List.mem_map.mp hmem
    exact hfree (List.mem_map.mpr ⟨e, List.mem_append_right _ he, heq⟩)
  have hput := h.list.put (fun he => hd (List.mem_append_right _ he)) hmem hlt.1
  have hcases : ∀ e ∈ cur.toList ++ (ds ++ [d]), e ∈ cur.toList ++ ds ∨ e = d := by
    intro e he
    rw [← List.append_assoc] at he
    exact (List.mem_append.mp he).imp id List.mem_singleton.mp
  refine ⟨hput, ?_, ?_, ?_, h.back, ?_, ?_, h.queueBound⟩
  · rw [← List.append_assoc]
    rw [← List.concat_eq_append]
    exact h.nodup.concat hd
  · intro e he
    rcases hcases e he with he | rfl
    · exact h.bound e he
    · exact hlt
  · have hlist := Holds.pending_linkDatum cur w ds d
    rw [Holds.pending] at hlist
    rw [hlist, ← List.concat_eq_append]
    exact h.msgs.concat hfree
  · obtain ⟨Q, hQ, hrep⟩ := h.queue
    exact ⟨Q, hQ, hrep.congr (h.linkDatum_next hq)⟩
  · intro e he
    rcases hcases e he with he | rfl
    · exact h.apart e he
    · exact hq

/-- **A message that is not in use can be pushed.** -/
theorem Holds.pushMsgData {v : Addr} (h : Holds cur w ds q) (hv : v < w.heap.brk)
    (hfree : v ∉ Holds.pending cur w ds) (hq : v ∉ q) :
    Holds cur (w.pushMsgData v) (ds ++ [w.heap.pdBrk]) q ∧
      Holds.pending cur (w.pushMsgData v) (ds ++ [w.heap.pdBrk]) =
        Holds.pending cur w ds ++ [v] := by
  obtain ⟨hnew, hpend⟩ := h.newDatum v
  have hmsg := newDatum_msgOf w v
  rw [pushMsgData_eq]
  refine ⟨hnew.linkDatum ?_ ⟨Nat.lt_succ_self _, ?_⟩ ?_ ?_, ?_⟩
  · exact fun hd => absurd (h.bound _ hd).1 (lt_irrefl _)
  · rw [hmsg]
    exact hv
  · rw [hmsg, hpend]
    exact hfree
  · rw [hmsg]
    exact hq
  · rw [Holds.pending_linkDatum, hpend, hmsg]

/-- Taking a push datum out of the list writes only links. -/
theorem AppWorld.getPushData_heap (w : AppWorld ω) : ∃ next pdNext,
    w.getPushData.2.heap = { w.heap with next := next, pdNext := pdNext } := by
  unfold AppWorld.getPushData IoPushList.get
  dsimp only
  split <;> exact ⟨_, _, rfl⟩

/-- The next push datum to be written is the first of the list. -/
theorem Holds.getPushData {d : Addr} (h : Holds none w (d :: ds) q) :
    w.getPushData.1 = some d ∧ Holds (some d) w.getPushData.2 ds q ∧
      Holds.pending (some d) w.getPushData.2 ds = Holds.pending none w (d :: ds) ∧
      w.getPushData.2.heap.released = w.heap.released := by
  obtain ⟨hget, hrep⟩ := h.list.get
  have hnext : ∀ a ∈ q, w.getPushData.2.heap.next a = w.heap.next a := by
    intro a ha
    refine h.list.get_next ?_
    rintro rfl
    exact h.apart d List.mem_cons_self ha
  obtain ⟨next, pdNext, hheap⟩ := w.getPushData_heap
  have hmsg : msgOf w.getPushData.2.heap = msgOf w.heap := by
    funext e
    rw [msgOf, hheap]
  refine ⟨hget, ⟨hrep, h.nodup, ?_, ?_, h.back, ?_, ?_, ?_⟩, ?_, by rw [hheap]⟩
  · rw [hmsg, hheap]
    exact h.bound
  · rw [hmsg]
    exact h.msgs
  · obtain ⟨Q, hQ, hq⟩ := h.queue
    exact ⟨Q, hQ, hq.congr hnext⟩
  · rw [hmsg]
    exact h.apart
  · rw [hheap]
    exact h.queueBound
  · rw [Holds.pending, hmsg]
    rfl

/-- What is released is no longer held. -/
theorem Holds.destroyMsgData {p : Addr} (h : Holds (some p) w ds q) :
    Holds none (AppWorld.destroyMsgData p w) ds q := by
  have hmem : ∀ d ∈ (none : Option Addr).toList ++ ds, d ∈ (some p).toList ++ ds :=
    fun d hd => List.mem_cons_of_mem _ hd
  exact ⟨⟨h.list.links, h.list.size, h.list.msgs, h.list.bound⟩, (List.nodup_cons.mp h.nodup).2,
    fun d hd => h.bound d (hmem d hd), (List.nodup_cons.mp h.msgs).2, h.back, h.queue,
    fun d hd => h.apart d (hmem d hd), h.queueBound⟩

theorem Holds.getPushData_nil (h : Holds none w [] q) : w.getPushData = (none, w) := by
  rw [AppWorld.getPushData, h.list.get_nil]

/-- The connection has released the first of the messages `pend`, in
addition to those in `rel`, and holds the others. -/
def Advance (pend rel q : List Addr) (m : Ctx Addr (AppWorld ω)) : Prop :=
  ∃ ds freed, Holds m.conn.currentPush m.app ds q ∧
    pend = freed ++ Holds.pending m.conn.currentPush m.app ds ∧
    m.app.heap.released = rel ++ freed

section Writing

variable (destroy : ℕ → ω → ω) {m m' : Ctx Addr (AppWorld ω)} {p : Addr}

theorem Holds.advance (h : Holds m.conn.currentPush m.app ds q) :
    Advance (Holds.pending m.conn.currentPush m.app ds) m.app.heap.released q m :=
  ⟨ds, [], h, rfl, (List.append_nil _).symm⟩

/-- One advance after another. -/
theorem Advance.bind {pend rel : List Addr} (h : Advance pend rel q m)
    (hnext : ∀ ds, Holds m.conn.currentPush m.app ds q →
      Advance (Holds.pending m.conn.currentPush m.app ds) m.app.heap.released q m') :
    Advance pend rel q m' := by
  obtain ⟨ds, freed, hh, hp, hr⟩ := h
  obtain ⟨ds', freed', hh', hp', hr'⟩ := hnext ds hh
  refine ⟨ds', freed ++ freed', hh', ?_, ?_⟩
  · rw [hp, hp', List.append_assoc]
  · rw [hr', hr, List.append_assoc]

theorem nextPush_none (h : m.app.getPushData = (none, m.app)) :
    nextPush (appHooks destroy) m =
      { m with conn := { m.conn with currentPush := none, wevent := false, revent := true } } := by
  have hget : (appHooks destroy).getPushData m.app = (none, m.app) := h
  unfold nextPush
  rw [hget]

theorem nextPush_some {d : Addr} (h : m.app.getPushData.1 = some d) :
    nextPush (appHooks destroy) m =
      { m with conn := { m.conn with currentPush := some d }, app := m.app.getPushData.2 } := by
  have hget : (appHooks destroy).getPushData m.app = (some d, m.app.getPushData.2) :=
    Prod.ext h rfl
  unfold nextPush
  rw [hget]

/-- Taking the next message to write releases nothing. -/
theorem nextPush_advance (hw : m.app = w) (h : Holds none w ds q) :
    Advance (Holds.pending none w ds) w.heap.released q (nextPush (appHooks destroy) m) := by
  subst hw
  cases ds with
  | nil =>
    rw [nextPush_none destroy h.getPushData_nil]
    exact ⟨[], [], h, rfl, (List.append_nil _).symm⟩
  | cons d ds =>
    obtain ⟨hget, hh, hp, hr⟩ := h.getPushData
    rw [nextPush_some destroy hget]
    exact ⟨ds, [], hh, hp.symm, hr.trans (List.append_nil _).symm⟩

/-- A message that has been written completely is released. -/
theorem finish_advance (hw : m.app = AppWorld.destroyMsgData p w) (h : Holds (some p) w ds q) :
    Advance (Holds.pending (some p) w ds) w.heap.released q (nextPush (appHooks destroy) m) := by
  obtain ⟨ds', freed, hh, hp, hr⟩ := nextPush_advance destroy hw h.destroyMsgData
  refine ⟨ds', msgOf w.heap p :: freed, hh, ?_, ?_⟩
  · show msgOf w.heap p :: Holds.pending none (AppWorld.destroyMsgData p w) ds = _
    rw [hp]
    rfl
  · refine hr.trans ?_
    show w.heap.released ++ [msgOf w.heap p] ++ freed = _
    rw [List.append_assoc]
    rfl

/-- The message of the push datum stays. -/
theorem msgOf_setWpos (p : Addr) (k : ℤ) (w : AppWorld ω) (d : Addr) :
    msgOf (AppWorld.setWpos p k w).heap d = msgOf w.heap d := by
  by_cases hd : d = p
  · rw [hd]
    show (Function.update w.heap.pd p _ p).msg = _
    rw [Function.update_self]
  · exact congrArg IoPushData.msg (Function.update_of_ne hd ..)

/-- `_wpos` moves on. -/
theorem Holds.setWpos (h : Holds (some p) w ds q) (k : ℤ) :
    Holds (some p) (AppWorld.setWpos p k w) ds q ∧
      Holds.pending (some p) (AppWorld.setWpos p k w) ds = Holds.pending (some p) w ds := by
  have hmsg := msgOf_setWpos p k w
  exact ⟨h.congr rfl rfl rfl (fun _ _ => rfl) (fun d _ => hmsg d) (fun _ _ => rfl) le_rfl le_rfl,
    List.map_congr_left fun d _ => hmsg d⟩

theorem sendLoop_advance (cs : List SendChoice) (hp : m.conn.currentPush = some p)
    (h : Holds (some p) m.app ds q) :
    (sendLoop (appHooks destroy) p cs m).conn.destroy = true ∨
      Advance (Holds.pending (some p) m.app ds) m.app.heap.released q
        (sendLoop (appHooks destroy) p cs m) := by
  -- a loop that stops before the end of the message releases nothing
  have hstay : ∀ {m' : Ctx Addr (AppWorld ω)} {w : AppWorld ω},
      m'.conn.currentPush = some p → m'.app = w → Holds (some p) w ds q →
      Advance (Holds.pending (some p) w ds) w.heap.released q m' := by
    rintro m' w hp' rfl hh
    exact ⟨ds, [], hp' ▸ hh, by rw [hp']; rfl, (List.append_nil _).symm⟩
  induction cs with
  | nil =>
    unfold sendLoop
    dsimp only
    split
    · exact Or.inr (hstay hp rfl h)
    · split
      · exact Or.inr (finish_advance destroy rfl h)
      · exact Or.inr (hstay hp rfl h)
  | cons c cs ih =>
    unfold sendLoop
    dsimp only
    split
    · cases c with
      | eintr => exact ih
      | eagain | zero => exact Or.inr (hstay hp rfl h)
      | error => exact Or.inl rfl
      | put n =>
        dsimp only
        split
        · refine Or.inr ?_
          rw [← (h.setWpos _).2]
          exact finish_advance destroy rfl (h.setWpos _).1
        · refine Or.inr ?_
          rw [← (h.setWpos _).2]
          exact hstay hp rfl (h.setWpos _).1
    · split
      · exact Or.inr (finish_advance destroy rfl h)
      · exact Or.inr (hstay hp rfl h)

theorem writeCurrent_advance {pend rel : List Addr} (sends : List SendChoice)
    (h : Advance pend rel q m) :
    (writeCurrent (appHooks destroy) sends m).conn.destroy = true ∨
      Advance pend rel q (writeCurrent (appHooks destroy) sends m) := by
  unfold writeCurrent
  split
  · exact Or.inr h
  · rename_i p hp
    split
    · exact Or.inl rfl
    · by_cases hd : (sendLoop (appHooks destroy) p sends m).conn.destroy = true
      · exact Or.inl hd
      · refine Or.inr (h.bind fun ds hh => ?_)
        rw [hp] at hh ⊢
        exact (sendLoop_advance destroy sends hp hh).resolve_left hd

theorem dataWrite_advance (sends : List SendChoice) (h : Holds m.conn.currentPush m.app ds q) :
    (dataWrite (appHooks destroy) sends m).conn.destroy = true ∨
      Advance (Holds.pending m.conn.currentPush m.app ds) m.app.heap.released q
        (dataWrite (appHooks destroy) sends m) := by
  unfold dataWrite
  split
  · exact writeCurrent_advance destroy sends h.advance
  · rename_i hp
    rw [hp] at h ⊢
    exact writeCurrent_advance destroy sends (nextPush_advance destroy rfl h)

/-- **A write event** releases what has been written, and holds the rest. -/
theorem writeHandler_advance (connected : Bool) (sends : List SendChoice)
    (h : Holds m.conn.currentPush m.app ds q) :
    (writeHandler (appHooks destroy) connected sends m).conn.destroy = true ∨
      Advance (Holds.pending m.conn.currentPush m.app ds) m.app.heap.released q
        (writeHandler (appHooks destroy) connected sends m) := by
  unfold writeHandler
  split
  · exact Or.inr h.advance
  · unfold writeSocket
    split
    · split
      · exact dataWrite_advance destroy
          (m := { m with conn := { m.conn with wsockState := .dataWrite } }) sends h
      · exact Or.inl rfl
    · exact dataWrite_advance destroy sends h
    · exact Or.inl rfl

end Writing

/-! ### Closing -/

/-- The messages not fully written: the current one, then the push list. -/
def pendingOf (m : Ctx Addr (AppWorld ω)) : List Addr :=
  (m.conn.currentPush.toList ++ m.app.conn.pushBuffer.items m.app.heap).map (msgOf m.app.heap)

/-- The collector's queue. -/
def queueOf (w : AppWorld ω) : List Addr :=
  match w.collector with
  | some Q => Q.toList w.heap
  | none => []

/-- The connection holds no message. -/
def HoldsNone (m : Ctx Addr (AppWorld ω)) : Prop :=
  m.conn.currentPush = none ∧ m.app.conn.pendingData = none ∧
    m.app.conn.pushBuffer = IoPushList.empty

theorem Holds.pendingOf_eq {m : Ctx Addr (AppWorld ω)}
    (h : Holds m.conn.currentPush m.app ds q) :
    pendingOf m = Holds.pending m.conn.currentPush m.app ds := by
  rw [pendingOf, h.list.items_eq]
  rfl

theorem Holds.queueOf_eq (h : Holds cur w ds q) : queueOf w = q := by
  obtain ⟨Q, hQ, hrep⟩ := h.queue
  rw [queueOf, hQ]
  exact hrep.toList_eq

/-- The current push datum goes back to the front of the list. -/
theorem Holds.takeBack {p : Addr} (h : Holds (some p) w ds q) :
    Holds none (AppWorld.pendingPushData p w).takeBack (p :: ds) q ∧
      Holds.pending none (AppWorld.pendingPushData p w).takeBack (p :: ds) =
        Holds.pending (some p) w ds := by
  obtain ⟨hpd, hbrk⟩ := IoPushList.putFirst_pd (L := w.conn.pushBuffer) (H := w.heap) (d := p)
  have hfresh := List.nodup_cons.mp h.nodup
  have hmsg : msgOf (AppWorld.pendingPushData p w).takeBack.heap = msgOf w.heap := by
    funext d
    exact congrArg (fun f => (f d).msg) hpd
  have hrep := h.list.putFirst hfresh.1 (List.nodup_cons.mp h.msgs).1
    (h.bound p List.mem_cons_self).1
  refine ⟨⟨hrep, h.nodup, ?_, ?_, rfl, ?_, ?_, ?_⟩, ?_⟩
  · intro d hd
    refine ⟨hrep.bound d hd, ?_⟩
    rw [hmsg]
    exact (h.bound d hd).2.trans_eq hbrk.symm
  · rw [hmsg]
    exact h.msgs
  · obtain ⟨Q, hQ, hq⟩ := h.queue
    refine ⟨Q, hQ, hq.congr fun v hv => IoPushList.putFirst_next_of_ne ?_⟩
    rintro rfl
    exact h.apart p List.mem_cons_self hv
  · rw [hmsg]
    exact h.apart
  · exact fun v hv => (h.queueBound v hv).trans_eq hbrk.symm
  · rw [Holds.pending, hmsg]
    rfl

theorem Holds.takeBack_none (h : Holds none w ds q) : w.takeBack = w := by
  unfold AppWorld.takeBack
  rw [h.back]

theorem Holds.handOver_nil (h : Holds none w [] q) : w.handOver = w := by
  unfold AppWorld.handOver
  rw [h.list.stealMsg_eq]
  rfl

/-- The collector is given the head of the chain, and takes one message. -/
theorem Holds.handOver_cons {d : Addr} (h : Holds none w (d :: ds) q) :
    ∃ (Q : MsMessageBlockQueue) (freed : List Addr), Q.Rep w.heap q ∧ w.handOver =
      { w with
        collector := some (Q.put (msgOf w.heap d) w.heap).1
        conn := { w.conn with pushBuffer := .empty }
        heap := { (Q.put (msgOf w.heap d) w.heap).2 with pdFreed := freed } } := by
  obtain ⟨Q, hQ, hq⟩ := h.queue
  have hsteal : w.conn.pushBuffer.stealMsg w.heap = some (msgOf w.heap d) := h.list.stealMsg_eq
  obtain ⟨freed, hclear⟩ := IoPushList.shallowClear_heap (L := w.conn.pushBuffer)
    (H := (Q.put (msgOf w.heap d) w.heap).2)
  refine ⟨Q, freed, hq, ?_⟩
  simp only [AppWorld.handOver, hsteal, hQ, hclear]
  rfl

theorem Holds.handOver (h : Holds none w ds q) :
    Holds none w.handOver [] (q ++ (Holds.pending none w ds).take 1) := by
  cases ds with
  | nil =>
    rw [h.handOver_nil, Holds.pending]
    simpa using h
  | cons d ds =>
    obtain ⟨Q, freed, hq, hhand⟩ := h.handOver_cons
    have hd : d ∈ (none : Option Addr).toList ++ d :: ds := List.mem_cons_self
    have hput := hq.put (h.apart d hd)
    rw [hhand]
    refine ⟨IoPushList.rep_empty, List.nodup_nil, (fun _ he => nomatch he), List.nodup_nil, h.back,
      ⟨_, rfl, hput⟩, (fun _ he => nomatch he), ?_⟩
    intro v hv
    rcases List.mem_append.mp hv with hv | hv
    · exact h.queueBound v hv
    · rw [List.mem_singleton.mp (show v ∈ [msgOf w.heap d] from hv)]
      exact (h.bound d hd).2

/-- **A teardown hands over the first message that is pending**, and leaves
the connection without any. -/
theorem Holds.after_teardown (destroy : ℕ → ω → ω) (reset : Bool) {m : Ctx Addr (AppWorld ω)}
    (h : Holds m.conn.currentPush m.app ds q) :
    Holds none (teardown (appHooks destroy) reset m).app []
      (q ++ (Holds.pending m.conn.currentPush m.app ds).take 1) := by
  -- `w₁` is the world in which `whenClosed` is called, with a current push or without
  have hclosed : ∀ (w₁ : AppWorld ω) (ds' : List Addr), Holds none w₁.takeBack ds' q →
      Holds none ((appHooks destroy).whenDestroy w₁.whenClosed) []
        (q ++ (Holds.pending none w₁.takeBack ds').take 1) := by
    intro w₁ ds' hback
    obtain ⟨hlist, hnodup, hbound, hmsgs, hdata, hqueue, hapart, hqb⟩ := hback.handOver
    exact ⟨hlist, hnodup, hbound, hmsgs, hdata, hqueue, hapart, hqb⟩
  unfold teardown
  rcases hp : m.conn.currentPush with - | p
  · rw [hp] at h
    have hres := hclosed m.app ds (h.takeBack_none.symm ▸ h)
    rwa [h.takeBack_none] at hres
  · rw [hp] at h
    obtain ⟨hback, hpend⟩ := h.takeBack
    have hres := hclosed (AppWorld.pendingPushData p m.app) (p :: ds) hback
    rwa [hpend] at hres

theorem teardown_handOver (destroy : ℕ → ω → ω) (reset : Bool) {m : Ctx Addr (AppWorld ω)}
    (h : Holds m.conn.currentPush m.app ds q) :
    queueOf (teardown (appHooks destroy) reset m).app = queueOf m.app ++ (pendingOf m).take 1 ∧
      HoldsNone (teardown (appHooks destroy) reset m) := by
  have hafter := h.after_teardown destroy reset
  rw [h.pendingOf_eq, h.queueOf_eq, hafter.queueOf_eq]
  exact ⟨rfl, rfl, hafter.back, hafter.list.eq_empty⟩

/-! ### The states of a connection in use -/

/-- What the rest of the program may do meanwhile.  The collector takes its
queue and other connections add to it, memory is allocated and released, and
the messages of others are linked anew; but nobody touches the push data and
the messages this connection holds. -/
structure Outside (cur : Option Addr) (w w' : AppWorld ω) : Prop where
  conn : w'.conn = w.conn
  links : ∀ d ∈ w.conn.pushBuffer.items w.heap, w'.heap.pdNext d = w.heap.pdNext d
  pd : ∀ d ∈ cur.toList ++ w.conn.pushBuffer.items w.heap, w'.heap.pd d = w.heap.pd d
  next : ∀ d ∈ w.conn.pushBuffer.items w.heap,
    w'.heap.next (msgOf w.heap d) = w.heap.next (msgOf w.heap d)
  pdBrk : w.heap.pdBrk ≤ w'.heap.pdBrk
  brk : w.heap.brk ≤ w'.heap.brk
  released : w.heap.released <+: w'.heap.released
  queue : ∃ Q q, w'.collector = some Q ∧ Q.Rep w'.heap q ∧ (∀ v ∈ q, v < w'.heap.brk) ∧
    ∀ d ∈ cur.toList ++ w.conn.pushBuffer.items w.heap, msgOf w.heap d ∉ q

/-- The states of a connection with a collector, with the messages pushed to
it so far.  A message is pushed by the IO thread that owns it, so it is in
none of the lists here; pushing may also switch the state of the
connection. -/
inductive Reached (destroy : ℕ → ω → ω) : List Addr → Ctx Addr (AppWorld ω) → Prop
  | start (c : IoConnection Addr) (fd io : ℤ) (id : ℕ) (a : IoAppConnection) (H : Heap)
      (Q : MsMessageBlockQueue) (q : List Addr) (clock : ℕ → ℤ) (o : ω) (alloc : Bool)
      (stream : List UInt8) (hbuf : a.pushBuffer = IoPushList.empty) (hq : Q.Rep H q)
      (hbound : ∀ v ∈ q, v < H.brk) :
      Reached destroy [] (accepted (c.initializeConn fd io id)
        (AppWorld.start a io id H (some Q) clock o) alloc stream)
  | push {ps : List Addr} {m : Ctx Addr (AppWorld ω)} (hm : Reached destroy ps m) (v : Addr)
      (state : ℤ) (hlive : m.conn.destroy = false) (hv : v < m.app.heap.brk)
      (hfree : v ∉ pendingOf m) (hq : v ∉ queueOf m.app) :
      Reached destroy (ps ++ [v]) { m with
        conn := m.conn.setWrite
        app := { m.app with conn := { m.app.conn with state := state } }.pushMsgData v }
  | read {ps : List Addr} {m : Ctx Addr (AppWorld ω)} (hm : Reached destroy ps m) (fuel : ℕ)
      (stream : List UInt8) (script : List RecvChoice) :
      Reached destroy ps
        (readHandler (appHooks destroy) fuel script { m with unread := stream })
  | write {ps : List Addr} {m : Ctx Addr (AppWorld ω)} (hm : Reached destroy ps m)
      (connected : Bool) (sends : List SendChoice) :
      Reached destroy ps (writeHandler (appHooks destroy) connected sends m)
  | timeout {ps : List Addr} {m : Ctx Addr (AppWorld ω)} (hm : Reached destroy ps m) :
      Reached destroy ps (timeoutHandler (appHooks destroy) m)
  | outside {ps : List Addr} {m : Ctx Addr (AppWorld ω)} (hm : Reached destroy ps m)
      (w : AppWorld ω) (hw : Outside m.conn.currentPush m.app w) :
      Reached destroy ps { m with app := w }

/-- What is known of an open connection: the messages pushed to it are those
written and released, followed by those it holds. -/
structure InUse (ps : List Addr) (m : Ctx Addr (AppWorld ω)) : Prop where
  holds : ∃ ds q, Holds m.conn.currentPush m.app ds q
  order : ∃ written, ps = written ++ pendingOf m ∧ ∀ v ∈ written, v ∈ m.app.heap.released

theorem setWrite_currentPush (c : IoConnection Addr) :
    c.setWrite.currentPush = c.currentPush := by
  unfold IoConnection.setWrite
  split <;> rfl

/-- Memory that is not held may change, and so may the queue. -/
theorem Holds.frame {Q : MsMessageBlockQueue} {q' : List Addr} (h : Holds cur w ds q)
    (hconn : w'.conn = w.conn) (hlinks : ∀ d ∈ ds, w'.heap.pdNext d = w.heap.pdNext d)
    (hpd : ∀ d ∈ cur.toList ++ ds, w'.heap.pd d = w.heap.pd d)
    (hnext : ∀ d ∈ ds, w'.heap.next (msgOf w.heap d) = w.heap.next (msgOf w.heap d))
    (hpdBrk : w.heap.pdBrk ≤ w'.heap.pdBrk) (hbrk : w.heap.brk ≤ w'.heap.brk)
    (hQ : w'.collector = some Q) (hrep : Q.Rep w'.heap q') (hqb : ∀ v ∈ q', v < w'.heap.brk)
    (hapart : ∀ d ∈ cur.toList ++ ds, msgOf w.heap d ∉ q') :
    Holds cur w' ds q' ∧ Holds.pending cur w' ds = Holds.pending cur w ds := by
  have hmsg : ∀ d ∈ cur.toList ++ ds, msgOf w'.heap d = msgOf w.heap d :=
    fun d hd => congrArg IoPushData.msg (hpd d hd)
  have hmap : Holds.pending cur w' ds = Holds.pending cur w ds := List.map_congr_left hmsg
  refine ⟨⟨?_, h.nodup, ?_, ?_, ?_, ⟨Q, hQ, hrep⟩, ?_, hqb⟩, hmap⟩
  · rw [hconn]
    exact h.list.congr hlinks (fun d hd => hmsg d (List.mem_append_right _ hd)) hnext hpdBrk
  · intro d hd
    obtain ⟨hlt, hm⟩ := h.bound d hd
    rw [hmsg d hd]
    exact ⟨hlt.trans_le hpdBrk, hm.trans_le hbrk⟩
  · show (Holds.pending cur w' ds).Nodup
    rw [hmap]
    exact h.msgs
  · rw [hconn]
    exact h.back
  · intro d hd
    rw [hmsg d hd]
    exact hapart d hd

/-- The rest of the program leaves the connection's memory alone. -/
theorem Holds.outside (h : Holds cur w ds q) (hw : Outside cur w w') :
    (∃ q', Holds cur w' ds q') ∧ Holds.pending cur w' ds = Holds.pending cur w ds := by
  obtain ⟨hconn, hlinks, hpd, hnext, hpdBrk, hbrk, -, Q, q', hQ, hrep, hqb, hapart⟩ := hw
  rw [h.list.items_eq] at hlinks hpd hnext hapart
  obtain ⟨hholds, hpend⟩ :=
    h.frame hconn hlinks hpd hnext hpdBrk hbrk hQ hrep hqb hapart
  exact ⟨⟨q', hholds⟩, hpend⟩

section Steps

variable {destroy : ℕ → ω → ω} {ps : List Addr} {m : Ctx Addr (AppWorld ω)}

theorem InUse.start (c : IoConnection Addr) (fd io : ℤ) (id : ℕ) {a : IoAppConnection} {H : Heap}
    {Q : MsMessageBlockQueue} (clock : ℕ → ℤ) (o : ω) (alloc : Bool) (stream : List UInt8)
    (hbuf : a.pushBuffer = IoPushList.empty) (hq : Q.Rep H q) (hbound : ∀ v ∈ q, v < H.brk) :
    InUse [] (accepted (c.initializeConn fd io id)
      (AppWorld.start a io id H (some Q) clock o) alloc stream) := by
  have hlist : (a.initializeApp io id).pushBuffer.Rep H [] := by
    show a.pushBuffer.Rep H []
    rw [hbuf]
    exact IoPushList.rep_empty
  have hholds : Holds none (AppWorld.start a io id H (some Q) clock o) [] q :=
    ⟨hlist, List.nodup_nil, (fun d hd => nomatch hd), List.nodup_nil, rfl, ⟨Q, rfl, hq⟩,
      (fun d hd => nomatch hd), hbound⟩
  refine ⟨⟨[], q, hholds⟩, [], ?_, fun v hv => nomatch hv⟩
  exact (Holds.pendingOf_eq (m := accepted (c.initializeConn fd io id)
    (AppWorld.start a io id H (some Q) clock o) alloc stream) hholds).symm

theorem InUse.push {v : Addr} (h : InUse ps m) (state : ℤ) (hv : v < m.app.heap.brk)
    (hfree : v ∉ pendingOf m) (hq : v ∉ queueOf m.app) :
    InUse (ps ++ [v]) { m with
      conn := m.conn.setWrite
      app := { m.app with conn := { m.app.conn with state := state } }.pushMsgData v } := by
  obtain ⟨⟨ds, q, hholds⟩, written, hps, hwritten⟩ := h
  rw [hholds.pendingOf_eq] at hfree hps
  rw [hholds.queueOf_eq] at hq
  have hstate : Holds m.conn.currentPush
      { m.app with conn := { m.app.conn with state := state } } ds q :=
    ⟨hholds.list, hholds.nodup, hholds.bound, hholds.msgs, hholds.back, hholds.queue,
      hholds.apart, hholds.queueBound⟩
  obtain ⟨hpush, hpend⟩ := hstate.pushMsgData hv hfree hq
  have hcur := setWrite_currentPush m.conn
  refine ⟨⟨_, q, hcur.symm ▸ hpush⟩, written, ?_, hwritten⟩
  rw [Holds.pendingOf_eq (hcur.symm ▸ hpush)]
  show ps ++ [v] = written ++ Holds.pending m.conn.setWrite.currentPush _ _
  rw [hcur, hpend, hps, List.append_assoc]
  rfl

/-- A read event allocates messages and passes them on; what the connection
holds and what has been released stay. -/
theorem InUse.read (fuel : ℕ) (stream : List UInt8) (script : List RecvChoice)
    (h : m.conn.destroy = false → InUse ps m)
    (hlive : (readHandler (appHooks destroy) fuel script
      { m with unread := stream }).conn.destroy = false) :
    InUse ps (readHandler (appHooks destroy) fuel script { m with unread := stream }) := by
  let m' := readHandler (appHooks destroy) fuel script { m with unread := stream }
  have hframe : ∀ {mem : List UInt8} {b size : ℤ} {w : AppWorld ω} {r : ℤ} {w' : AppWorld ω},
      (∃ ds q, Holds m.conn.currentPush w ds q ∧
        pendingOf m = Holds.pending m.conn.currentPush w ds ∧
        w.heap.released = m.app.heap.released) →
      (appHooks destroy).whenReceivedFrame mem b size w = some (r, w') →
      ∃ ds q, Holds m.conn.currentPush w' ds q ∧
        pendingOf m = Holds.pending m.conn.currentPush w' ds ∧
        w'.heap.released = m.app.heap.released := by
    rintro mem b size w r w' ⟨ds, q, hholds, hpend, hreleased⟩ hcall
    refine ⟨ds, q, hholds.whenReceivedFrame hcall, ?_⟩
    rcases AppWorld.whenReceivedFrame_cases hcall with ⟨-, rfl | rfl⟩ | ⟨-, -, -, -, rfl⟩ <;>
      exact ⟨hpend, hreleased⟩
  obtain ⟨hlive', hcur, hkeep⟩ :=
    (frameRule hframe).readHandler fuel script { m with unread := stream } hlive
  obtain ⟨⟨ds, q, hholds⟩, written, hps, hwritten⟩ := h hlive'
  obtain ⟨ds', q', hholds', hpend, hreleased⟩ := hkeep ⟨ds, q, hholds, hholds.pendingOf_eq, rfl⟩
  have hcur' : Holds m'.conn.currentPush m'.app ds' q' := hcur.symm ▸ hholds'
  refine ⟨⟨ds', q', hcur'⟩, written, ?_, ?_⟩
  · rw [hcur'.pendingOf_eq, hcur, hps, hpend]
  · rw [hreleased]
    exact hwritten

/-- A write event moves messages from the front of those held to the
released ones. -/
theorem InUse.write (connected : Bool) (sends : List SendChoice) (h : InUse ps m)
    (hlive : (writeHandler (appHooks destroy) connected sends m).conn.destroy = false) :
    InUse ps (writeHandler (appHooks destroy) connected sends m) := by
  obtain ⟨⟨ds, q, hholds⟩, written, hps, hwritten⟩ := h
  obtain ⟨ds', freed, hholds', hpend, hreleased⟩ :=
    (writeHandler_advance destroy connected sends hholds).resolve_left
      (by rw [hlive]; exact Bool.false_ne_true)
  refine ⟨⟨ds', q, hholds'⟩, written ++ freed, ?_, ?_⟩
  · rw [hholds'.pendingOf_eq, hps, hholds.pendingOf_eq, hpend, List.append_assoc]
  · intro v hv
    rw [hreleased]
    exact (List.mem_append.mp hv).elim (fun hv => List.mem_append_left _ (hwritten v hv))
      (List.mem_append_right _)

theorem InUse.outside (h : InUse ps m) (hw : Outside m.conn.currentPush m.app w) :
    InUse ps { m with app := w } := by
  obtain ⟨⟨ds, q, hholds⟩, written, hps, hwritten⟩ := h
  obtain ⟨⟨q', hholds'⟩, hpend⟩ := hholds.outside hw
  refine ⟨⟨ds, q', hholds'⟩, written, ?_, fun v hv => hw.released.subset (hwritten v hv)⟩
  rw [Holds.pendingOf_eq (m := { m with app := w }) hholds', hps, hholds.pendingOf_eq]
  exact congrArg (written ++ ·) hpend.symm

/-- **Every open connection is in use as it should be**, by induction on how
its state was reached. -/
theorem Reached.inUse (h : Reached destroy ps m) (hlive : m.conn.destroy = false) :
    InUse ps m := by
  induction h with
  | start c fd io id a H Q q clock o alloc stream hbuf hq hbound =>
    exact InUse.start c fd io id clock o alloc stream hbuf hq hbound
  | push hm v state hlive' hv hfree hq ih => exact (ih hlive').push state hv hfree hq
  | read hm fuel stream script ih => exact InUse.read fuel stream script ih hlive
  | write hm connected sends ih =>
    have hsame := fun m => (writeSameRead (appHooks destroy)).writeHandler connected sends m
    exact (ih ((hsame _).alive hlive)).write connected sends hlive
  | timeout hm ih =>
    unfold timeoutHandler at hlive ⊢
    split at hlive
    · rename_i hstop
      rw [if_pos hstop]
      exact ih hlive
    · cases hlive
  | outside hm w hw ih => exact (ih hlive).outside hw

end Steps

/-! ### What a teardown hands over -/

/-- **What is handed over when a connection closes.**  The messages pushed to
an open connection are the ones it has written and released, followed by the
ones pending, each once.  After `closeSocket` or `resetSocket` the collector
has exactly the pending ones, in order, if and only if there is at most one;
the connection holds none in any case. -/
theorem teardown_handOver_iff {destroy : ℕ → ω → ω} {ps : List Addr}
    {m : Ctx Addr (AppWorld ω)} (reset : Bool) (h : Reached destroy ps m)
    (hlive : m.conn.destroy = false) :
    (∃ written, ps = written ++ pendingOf m ∧ ∀ v ∈ written, v ∈ m.app.heap.released) ∧
      (pendingOf m).Nodup ∧
      HoldsNone (teardown (appHooks destroy) reset m) ∧
      (queueOf (teardown (appHooks destroy) reset m).app = queueOf m.app ++ pendingOf m ↔
        (pendingOf m).length ≤ 1) := by
  obtain ⟨⟨ds, q, hholds⟩, horder⟩ := h.inUse hlive
  obtain ⟨hqueue, hnone⟩ := teardown_handOver destroy reset hholds
  refine ⟨horder, ?_, hnone, ?_⟩
  · rw [hholds.pendingOf_eq]
    exact hholds.msgs
  · rw [hqueue, List.append_cancel_left_eq, List.take_eq_self_iff]

/-- An accepted connection, with two messages in memory. -/
def twoMessages : Ctx Addr (AppWorld Unit) :=
  accepted ((IoConnection.new Addr).initializeConn 5 0 1)
    (AppWorld.start (IoAppConnection.new 0) 0 1 { Heap.empty with brk := 2 }
      (some MsMessageBlockQueue.empty) (fun _ => 0) ()) true []

theorem twoMessages_reached (destroy : ℕ → Unit → Unit) : Reached destroy [] twoMessages :=
  .start _ 5 0 1 _ _ _ [] _ () true [] rfl MsMessageBlockQueue.rep_empty (fun _ hv => nomatch hv)

/-- One message pushed to a connection is handed over. -/
theorem teardown_handOver_one : ∃ m : Ctx Addr (AppWorld Unit),
    Reached (fun _ o => o) [0] m ∧ pendingOf m = [0] ∧
      queueOf (teardown (appHooks fun _ o => o) false m).app = queueOf m.app ++ [0] := by
  have hone := (twoMessages_reached fun _ o => o).push 0 MSG_STATE rfl (by decide) (by decide)
    (by decide)
  exact ⟨_, hone, by decide, ((teardown_handOver_iff false hone rfl).2.2.2).mpr (by decide)⟩

/-- Of two messages pushed to a connection the second is lost. -/
theorem closeSocket_loses_second : ∃ m : Ctx Addr (AppWorld Unit),
    Reached (fun _ o => o) [0, 1] m ∧ m.conn.destroy = false ∧ pendingOf m = [0, 1] ∧
      queueOf m.app = [] ∧ queueOf (closeSocket (appHooks fun _ o => o) m).app = [0] ∧
      HoldsNone (closeSocket (appHooks fun _ o => o) m) := by
  have htwo := ((twoMessages_reached fun _ o => o).push 0 MSG_STATE rfl (by decide) (by decide)
    (by decide)).push 1 MSG_STATE rfl (by decide) (by decide) (by decide)
  exact ⟨_, htwo, rfl, by decide, by decide, by decide, rfl, rfl, rfl⟩

end Xkim
