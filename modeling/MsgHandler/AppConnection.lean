/-
MsgHandler/AppConnection.lean

`io::IoAppConnection` (`framework/io/io_app_connection.{h,cpp}`): what a
client connection does with frames, with the messages pushed to it, and with
those it has not written when it closes.

`AppWorld` is everything the virtual members reach: the connection itself,
the memory, the queue of the pending-message collector (when one is
installed), a record of the messages passed to the processor, the clock, and
the state `ω` of the owner, which only the destroy callback touches.  Every
reading of the time takes the next value of the clock.
-/
import MsgHandler.Connection
import MsgHandler.Heap
import MsgHandler.Sampling

namespace Xkim

/-- `io::IoAppConnection`, less its base class; `id` and `io` are the
members of the base class that the virtual members read. -/
structure IoAppConnection where
  id : ℕ
  io : ℤ
  state : ℤ
  sampling : IoSampling
  pushBuffer : IoPushList
  pendingData : Option Addr
  secondLimit : ℤ
  minuteLimit : ℤ
  hourLimit : ℤ

/-- `IoAppConnection::IoAppConnection()` at time `now`. -/
def IoAppConnection.new (now : ℤ) : IoAppConnection where
  id := 0
  io := 0
  state := 0
  sampling := IoSampling.new now
  pushBuffer := IoPushList.empty
  pendingData := none
  secondLimit := 0
  minuteLimit := 0
  hourLimit := 0

/-- `IoAppConnection::initialize`, less the part of the base class. -/
def IoAppConnection.initializeApp (a : IoAppConnection) (io : ℤ) (id : ℕ) : IoAppConnection :=
  { a with id := id, io := io, state := INIT_STATE, pendingData := none }

/-- What the virtual members of a connection reach. -/
structure AppWorld (ω : Type) where
  conn : IoAppConnection
  heap : Heap
  collector : Option MsMessageBlockQueue
  processed : List (Addr × IMessage)
  clock : ℕ → ℤ
  tick : ℕ
  owner : ω

namespace AppWorld

variable {ω : Type}

/-- `_sampling.getSample(stat)`. -/
def getSample (w : AppWorld ω) : Sample × AppWorld ω :=
  let r := w.conn.sampling.getSample (w.clock w.tick)
  (r.1, { w with conn := { w.conn with sampling := r.2 }, tick := w.tick + 1 })

/-- `_sampling.sample()`. -/
def sample (w : AppWorld ω) : AppWorld ω :=
  { w with
    conn := { w.conn with sampling := w.conn.sampling.sample (w.clock w.tick) }
    tick := w.tick + 1 }

/-- The three limits of `whenReceivedFrame`, compared as `unsigned int`. -/
def overLimit (w : AppWorld ω) (stat : Sample) : Bool :=
  stat.secTotal > toUInt32 w.conn.secondLimit ||
    stat.minTotal > toUInt32 w.conn.minuteLimit ||
      stat.houTotal > toUInt32 w.conn.hourLimit

/-- Build a message from the `size` bytes at `buf`, and pass it to the
processor. -/
def process (w : AppWorld ω) (buf : List UInt8) (size : ℤ) : AppWorld ω :=
  let msg := { createIMessage buf size with
    state := w.conn.state
    io := w.conn.io
    conn := w.conn.id
    type := APP
    genTime := w.clock w.tick }
  let H := w.heap
  { w with
    heap := { H with
      msg := Function.update H.msg H.brk msg
      next := Function.update H.next H.brk none
      brk := H.brk + 1 }
    processed := w.processed ++ [(H.brk, msg)]
    tick := w.tick + 1 }

/-- `whenReceivedFrame(mem + b, size)`.  It reads the magic word whatever
`size` is, and copies `size` bytes: both are `none` outside the buffer. -/
def whenReceivedFrame (mem : List UInt8) (b size : ℤ) (w : AppWorld ω) :
    Option (ℤ × AppWorld ω) :=
  if 0 ≤ b ∧ b + 8 ≤ mem.length then
    if hostInt (mem.drop b.toNat) 1 = magic then
      let r := w.getSample
      -- a client over its limits is kicked
      if r.2.overLimit r.1 then some (-1, r.2)
      else if 0 ≤ size ∧ b + size ≤ mem.length then
        some (0, (r.2.process (mem.drop b.toNat) size).sample)
      else none
    else some (-1, w)
  else none

/-- `pushMsgData(msg)`. -/
def pushMsgData (w : AppWorld ω) (v : Addr) : AppWorld ω :=
  let H := w.heap
  let H := { H with
    pd := Function.update H.pd H.pdBrk ⟨v, (H.msg v).frameLen, 0⟩
    pdNext := Function.update H.pdNext H.pdBrk none
    pdBrk := H.pdBrk + 1 }
  let r := w.conn.pushBuffer.put w.heap.pdBrk H
  { w with conn := { w.conn with pushBuffer := r.1 }, heap := r.2 }

/-- `pendingPushData(data)`. -/
def pendingPushData (d : Addr) (w : AppWorld ω) : AppWorld ω :=
  { w with conn := { w.conn with pendingData := some d } }

/-- `getPushData()`. -/
def getPushData (w : AppWorld ω) : Option Addr × AppWorld ω :=
  let r := w.conn.pushBuffer.get w.heap
  (r.1, { w with conn := { w.conn with pushBuffer := r.2.1 }, heap := r.2.2 })

/-- The first half of `whenClosed`: the pending push data goes back to the
front of the push list. -/
def takeBack (w : AppWorld ω) : AppWorld ω :=
  match w.conn.pendingData with
  | none => w
  | some d =>
    let r := w.conn.pushBuffer.putFirst d w.heap
    { w with conn := { w.conn with pushBuffer := r.1, pendingData := none }, heap := r.2 }

/-- The second half of `whenClosed`: `collect` what the push list holds, or
drop it when there is no collector. -/
def handOver (w : AppWorld ω) : AppWorld ω :=
  match w.conn.pushBuffer.stealMsg w.heap with
  | none => w
  | some msg =>
    match w.collector with
    | some Q =>
      -- `collect(msg)` is given the head of a chain, but takes one message
      let r := Q.put msg w.heap
      let s := w.conn.pushBuffer.shallowClear r.2
      { w with
        collector := some r.1
        conn := { w.conn with pushBuffer := s.1 }
        heap := s.2 }
    | none =>
      let s := w.conn.pushBuffer.clear w.heap
      { w with conn := { w.conn with pushBuffer := s.1 }, heap := s.2 }

/-- `whenClosed()`. -/
def whenClosed (w : AppWorld ω) : AppWorld ω := w.takeBack.handOver

/-- `_current_push`, as `writeSocket` reads it. -/
def view (p : Addr) (w : AppWorld ω) : PushView where
  closeConn := (w.heap.msg (w.heap.pd p).msg).closeConn
  wbuf := (w.heap.msg (w.heap.pd p).msg).b
  wsize := (w.heap.pd p).wsize
  wpos := (w.heap.pd p).wpos

/-- `_current_push->_wpos = n`. -/
def setWpos (p : Addr) (n : ℤ) (w : AppWorld ω) : AppWorld ω :=
  { w with heap := { w.heap with
      pd := Function.update w.heap.pd p { w.heap.pd p with wpos := n } } }

/-- `destroyMsgData(_current_push)`. -/
def destroyMsgData (p : Addr) (w : AppWorld ω) : AppWorld ω :=
  { w with heap := w.heap.destroyMsgData p }

/-- The world of a connection that has just been initialised. -/
def start (a : IoAppConnection) (io : ℤ) (id : ℕ) (H : Heap)
    (collector : Option MsMessageBlockQueue) (clock : ℕ → ℤ) (o : ω) : AppWorld ω where
  conn := a.initializeApp io id
  heap := H
  collector := collector
  processed := []
  clock := clock
  tick := 0
  owner := o

/-! #### What the members leave alone -/

@[simp] theorem takeBack_processed (w : AppWorld ω) : w.takeBack.processed = w.processed := by
  unfold takeBack
  split <;> rfl

@[simp] theorem handOver_processed (w : AppWorld ω) : w.handOver.processed = w.processed := by
  unfold handOver
  split
  · rfl
  · split <;> rfl

@[simp] theorem whenClosed_processed (w : AppWorld ω) : w.whenClosed.processed = w.processed :=
  w.takeBack.handOver_processed.trans w.takeBack_processed

/-- What `whenReceivedFrame` can do: refuse a frame, or accept one with the
magic word and pass one message to the processor. -/
theorem whenReceivedFrame_cases {mem : List UInt8} {b size r : ℤ} {w w' : AppWorld ω}
    (h : whenReceivedFrame mem b size w = some (r, w')) :
    (r = -1 ∧ (w' = w ∨ w' = w.getSample.2)) ∨
      (r = 0 ∧ hostInt (mem.drop b.toNat) 1 = magic ∧ 0 ≤ size ∧ b + size ≤ mem.length ∧
        w' = (w.getSample.2.process (mem.drop b.toNat) size).sample) := by
  unfold whenReceivedFrame at h
  split at h
  · split at h
    · rename_i hmagic
      simp only at h
      split at h
      · obtain ⟨rfl, rfl⟩ := Prod.mk.inj (Option.some.inj h)
        exact Or.inl ⟨rfl, Or.inr rfl⟩
      · split at h
        · rename_i hsize
          obtain ⟨rfl, rfl⟩ := Prod.mk.inj (Option.some.inj h)
          exact Or.inr ⟨rfl, hmagic, hsize.1, hsize.2, rfl⟩
        · cases h
    · obtain ⟨rfl, rfl⟩ := Prod.mk.inj (Option.some.inj h)
      exact Or.inl ⟨rfl, Or.inl rfl⟩
  · cases h

/-- Only the destroy callback touches the owner, and `_id` never changes. -/
theorem whenReceivedFrame_owner {mem : List UInt8} {b size r : ℤ} {w w' : AppWorld ω}
    (h : whenReceivedFrame mem b size w = some (r, w')) :
    w'.owner = w.owner ∧ w'.conn.id = w.conn.id := by
  rcases whenReceivedFrame_cases h with ⟨-, rfl | rfl⟩ | ⟨-, -, -, -, rfl⟩ <;> exact ⟨rfl, rfl⟩

theorem whenClosed_owner (w : AppWorld ω) :
    w.whenClosed.owner = w.owner ∧ w.whenClosed.conn.id = w.conn.id := by
  have hback : w.takeBack.owner = w.owner ∧ w.takeBack.conn.id = w.conn.id := by
    unfold takeBack
    split <;> exact ⟨rfl, rfl⟩
  unfold whenClosed handOver
  split
  · exact hback
  · split <;> exact hback

end AppWorld

/-- The virtual members of `IoAppConnection`; `destroy id` is the destroy
callback of the owner, on the connection with that id. -/
def appHooks {ω : Type} (destroy : ℕ → ω → ω) : IoHooks Addr (AppWorld ω) where
  whenReceivedFrame := AppWorld.whenReceivedFrame
  pendingPushData := AppWorld.pendingPushData
  whenClosed := AppWorld.whenClosed
  whenDestroy w := { w with owner := destroy w.conn.id w.owner }
  getPushData := AppWorld.getPushData
  destroyMsgData := AppWorld.destroyMsgData
  view := AppWorld.view
  setWpos := AppWorld.setWpos

/-! ### What the members of a connection do to the world -/

/-- A relation of the world before and after that every member keeps, apart
from `whenReceivedFrame`. -/
structure AppRule {ω : Type} (destroy : ℕ → ω → ω) (R : AppWorld ω → AppWorld ω → Prop) :
    Prop where
  refl : ∀ w, R w w
  trans : ∀ {w w' w''}, R w w' → R w' w'' → R w w''
  pendingPushData : ∀ d w, R w (AppWorld.pendingPushData d w)
  whenClosed : ∀ w, R w w.whenClosed
  whenDestroy : ∀ w, R w ((appHooks destroy).whenDestroy w)
  getPushData : ∀ w, R w w.getPushData.2
  destroyMsgData : ∀ d w, R w (AppWorld.destroyMsgData d w)
  setWpos : ∀ d n w, R w (AppWorld.setWpos d n w)

section AppRule

variable {ω : Type} {destroy : ℕ → ω → ω} {R : AppWorld ω → AppWorld ω → Prop}

theorem AppRule.teardown (hR : AppRule destroy R) (reset : Bool) (m : Ctx Addr (AppWorld ω)) :
    R m.app (teardown (appHooks destroy) reset m).app := by
  have hclosed : ∀ w : AppWorld ω, R w ((appHooks destroy).whenDestroy w.whenClosed) :=
    fun w => hR.trans (hR.whenClosed w) (hR.whenDestroy _)
  unfold Xkim.teardown
  dsimp only
  split
  · exact hR.trans (hR.pendingPushData _ m.app) (hclosed _)
  · exact hclosed _

/-- Read events, when a frame keeps the relation as well. -/
theorem AppRule.read (hR : AppRule destroy R)
    (hframe : ∀ {mem : List UInt8} {b size r : ℤ} {w w' : AppWorld ω},
      AppWorld.whenReceivedFrame mem b size w = some (r, w') → R w w') :
    ReadRule (appHooks destroy) fun m m' => R m.app m'.app where
  refl m := hR.refl m.app
  trans := hR.trans
  recv hpost := by
    rw [hpost.app]
    exact hR.refl _
  frame b size m := by
    rcases callFrame_app (appHooks destroy) b size m with happ | ⟨r, happ⟩
    · rw [happ]
      exact hR.refl _
    · exact hframe happ
  buffer m _ _ := hR.refl m.app
  script m _ := hR.refl m.app
  halt m := hR.refl m.app
  teardown := hR.teardown

/-- Write events and timeouts. -/
theorem AppRule.write (hR : AppRule destroy R) :
    WriteRule (appHooks destroy) fun m m' => R m.app m'.app where
  refl m := hR.refl m.app
  trans := hR.trans
  conn m _ _ := hR.refl m.app
  getPushData m := hR.getPushData m.app
  destroyMsgData m d := hR.destroyMsgData d m.app
  send m d n _ := hR.setWpos d n m.app
  teardown := hR.teardown

end AppRule

end Xkim
