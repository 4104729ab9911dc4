/-
MsgHandler/Connection.lean

`io::IoConnection` (`framework/io/io_connection.{h,cpp}`): the non-blocking
read and write handlers of one client socket.

The kernel is an adversary.  Every `recv` of a read event is answered by the
next `RecvChoice` of a script: some bytes of the unread stream (at least
one, at most what was asked for), `EINTR`, `EAGAIN`, end of file, or any
other error; `send` is answered the same way.  A socket that has been closed
answers `EBADF` whatever the script says, and a `recv` for zero bytes
returns zero.

`readSocket` calls back into the subclass and into the owner of the
connection.  These callbacks are the fields of `IoHooks`, over a state `σ`
that the handler itself never looks at.  A callback that leaves the defined
behaviour of the program answers `none`, and so does every access outside
`_rbuf`; the context is then `halted`, as it is when the pipelined loop has
used up its fuel.

What a handler does is recorded in a trace: each `recv`, each frame handed
to `whenReceivedFrame`, each run of the body of `closeSocket` or
`resetSocket`, and each run of bytes accepted by `send`.
-/
import MsgHandler.Message

namespace Xkim

/-! ### Sockets -/

/-- `IoConnection::SOCK_STATE`. -/
inductive SockState
  | connecting
  | dataWrite
  | recvFraming
  | dataRecv
  deriving DecidableEq, Repr

/-- What the kernel answers to one `recv`.  `take n` hands over `n + 1`
bytes, capped by the request and by what has arrived. -/
inductive RecvChoice
  | take (n : ℕ)
  | eintr
  | eagain
  | eof
  | error
  deriving DecidableEq, Repr

/-- The outcome of a `recv` that is retried on `EINTR`. -/
inductive RecvResult
  | got (bytes : List UInt8)
  | eof
  | eagain
  | error
  deriving DecidableEq, Repr

/-- What the kernel answers to one `send`: `put n` accepts `n + 1` bytes,
capped by the request. -/
inductive SendChoice
  | put (n : ℕ)
  | zero
  | eintr
  | eagain
  | error
  deriving DecidableEq, Repr

/-- `FRAME_MAX_SIZE`. -/
def FRAME_MAX_SIZE : ℕ := 1024

/-- The size of a frame that fits passes through an `int` unchanged, -/
theorem toInt32_size {n : ℕ} (hn : n ≤ FRAME_MAX_SIZE) : toInt32 n = n :=
  toInt32_natCast (hn.trans_lt (by decide))

/-- and so does what is missing of it. -/
theorem toInt32_left {n rpos : ℕ} (hn : n ≤ FRAME_MAX_SIZE) (hrpos : rpos ≤ FRAME_MAX_SIZE) :
    toInt32 ((n : ℤ) - rpos) = (n : ℤ) - rpos := by
  rw [FRAME_MAX_SIZE] at hn hrpos
  rw [toInt32_eq_self] <;> omega

/-- A frame that fits into the buffer does not make it grow. -/
theorem not_grow {n rsize : ℕ} (hn : n ≤ FRAME_MAX_SIZE) (hrsize : rsize = FRAME_MAX_SIZE) :
    ¬ toInt32 n > rsize := by
  rw [toInt32_size hn, hrsize]
  omega

/-- `READ_BUFFER_INCREAMENT_SIZE`. -/
def READ_BUFFER_INCREAMENT_SIZE : ℕ := 64

/-- `CONN_DEFAULT_READ_LEN`. -/
def CONN_DEFAULT_READ_LEN : ℕ := 1024

/-- `io::IoConnection`, over the handles `P` of pending writes.  `socket` is
`none` after the descriptor has been closed; `revent` and `wevent` say
whether the read and the write event are registered. -/
structure IoConnection (P : Type) where
  id : ℕ
  io : ℤ
  socket : Option ℤ
  rsockState : SockState
  wsockState : SockState
  rbuf : List UInt8
  rsize : ℕ
  rpos : ℕ
  frameSize : ℕ
  currentPush : Option P
  destroy : Bool
  revent : Bool
  wevent : Bool

/-- `IoConnection::IoConnection()`. -/
def IoConnection.new (P : Type) : IoConnection P where
  id := 0
  io := 0
  socket := none
  rsockState := .recvFraming
  wsockState := .dataWrite
  rbuf := List.replicate CONN_DEFAULT_READ_LEN 0
  rsize := CONN_DEFAULT_READ_LEN
  rpos := 0
  frameSize := 0
  currentPush := none
  destroy := false
  revent := false
  wevent := false

/-- `IoConnection::initialize`: everything but the read buffer starts
afresh. -/
def IoConnection.initializeConn {P : Type} (c : IoConnection P) (fd : ℤ) (io : ℤ) (id : ℕ) :
    IoConnection P :=
  { c with
    socket := some fd
    io := io
    id := id
    rsockState := .recvFraming
    wsockState := .dataWrite
    rpos := 0
    frameSize := 0
    currentPush := none
    destroy := false
    revent := false
    wevent := false }

/-- The read buffer is the block of `CONN_DEFAULT_READ_LEN` bytes it was
constructed with. -/
def IoConnection.Sized {P : Type} (c : IoConnection P) : Prop :=
  c.rbuf.length = CONN_DEFAULT_READ_LEN ∧ c.rsize = CONN_DEFAULT_READ_LEN

theorem IoConnection.new_sized (P : Type) : (IoConnection.new P).Sized :=
  ⟨List.length_replicate, rfl⟩

/-- The bytes received and not yet consumed. -/
def IoConnection.received {P : Type} (c : IoConnection P) : List UInt8 :=
  c.rbuf.take c.rpos

/-- `io::IoPushData`, as `writeSocket` sees it. -/
structure PushView where
  closeConn : Bool
  wbuf : List UInt8
  wsize : ℤ
  wpos : ℤ

/-- The virtual members of `IoConnection` and the destroy callback, over the
handles `P` of pending writes and the state `σ` behind them.
`whenReceivedFrame mem b size` is given the whole read buffer and the offset
of its argument in it. -/
structure IoHooks (P σ : Type) where
  whenReceivedFrame : List UInt8 → ℤ → ℤ → σ → Option (ℤ × σ)
  pendingPushData : P → σ → σ
  whenClosed : σ → σ
  whenDestroy : σ → σ
  getPushData : σ → Option P × σ
  destroyMsgData : P → σ → σ
  view : P → σ → PushView
  setWpos : P → ℤ → σ → σ

/-- The members of `IoConnection` itself, which do nothing. -/
def IoHooks.base : IoHooks Unit Unit where
  whenReceivedFrame _ _ _ s := some (0, s)
  pendingPushData _ s := s
  whenClosed s := s
  whenDestroy s := s
  getPushData s := (none, s)
  destroyMsgData _ s := s
  view _ _ := ⟨false, [], 0, 0⟩
  setWpos _ _ s := s

/-- What a handler does. -/
inductive Act
  | recv (st : SockState) (rpos rsize len : ℕ)
  | frame (b size : ℤ) (rpos : ℕ) (bytes : List UInt8)
  | teardown (reset : Bool)
  | send (bytes : List UInt8)
  deriving DecidableEq, Repr

/-- A handler's view of the world: the connection, the state behind the
hooks, the stream still in the kernel, the answers the kernel will give to
`recv`, whether `new (std::nothrow)` succeeds, and the trace. -/
structure Ctx (P σ : Type) where
  conn : IoConnection P
  app : σ
  unread : List UInt8
  script : List RecvChoice
  alloc : Bool
  trace : List Act
  halted : Bool

variable {P σ : Type}

/-- Append to the trace. -/
def Ctx.log (m : Ctx P σ) (a : Act) : Ctx P σ := { m with trace := m.trace ++ [a] }

/-- The program has left its defined behaviour, or does not return. -/
def Ctx.halt (m : Ctx P σ) : Ctx P σ := { m with halted := true }

/-! ### Closing -/

/-- The common body of `closeSocket` and `resetSocket`; `reset` also sends
an RST. -/
def teardown (h : IoHooks P σ) (reset : Bool) (m : Ctx P σ) : Ctx P σ :=
  let pended := match m.conn.currentPush with
    | some p => h.pendingPushData p m.app
    | none => m.app
  { m with
    conn := { m.conn with
      destroy := true
      revent := false
      wevent := false
      socket := none
      currentPush := none }
    app := h.whenDestroy (h.whenClosed pended)
    trace := m.trace ++ [.teardown reset] }

/-- `IoConnection::closeSocket`. -/
def closeSocket (h : IoHooks P σ) (m : Ctx P σ) : Ctx P σ := teardown h false m

/-- `IoConnection::resetSocket`. -/
def resetSocket (h : IoHooks P σ) (m : Ctx P σ) : Ctx P σ := teardown h true m

/-! ### Reading -/

/-- The trace entry of a `recv` of `len` bytes. -/
def recvAct (len : ℕ) (c : IoConnection P) : Act := .recv c.rsockState c.rpos c.rsize len

/-- `::recv(_socket, _rbuf + _rpos, len, 0)`, retried on `EINTR` as both
loops of `readSocket` do.  A script that has run out answers `EAGAIN`. -/
def recv (len : ℕ) : List RecvChoice → Ctx P σ → RecvResult × Ctx P σ
  | cs, m =>
    let m := m.log (recvAct len m.conn)
    -- a closed descriptor fails with `EBADF`
    if m.conn.socket = none then (.error, { m with script := cs })
    else
      match cs with
      | [] => (.eagain, { m with script := [] })
      | .eintr :: cs => recv len cs m
      | .eagain :: cs => (.eagain, { m with script := cs })
      | .eof :: cs => (.eof, { m with script := cs })
      | .error :: cs => (.error, { m with script := cs })
      | .take n :: cs =>
        -- a request for no bytes returns 0, which reads as the end of the stream
        if len = 0 then (.eof, { m with script := cs })
        else if m.unread = [] then (.eagain, { m with script := cs })
        else
          (.got (m.unread.take (min (n + 1) len)),
            { m with script := cs, unread := m.unread.drop (min (n + 1) len) })

/-- An open socket with data answers a request at once. -/
theorem recv_take {len n : ℕ} {cs : List RecvChoice} {m : Ctx P σ}
    (hs : m.conn.socket ≠ none) (hl : 0 < len) (hu : m.unread ≠ []) :
    recv len (.take n :: cs) m = (.got (m.unread.take (min (n + 1) len)),
      { m.log (recvAct len m.conn) with
        script := cs, unread := m.unread.drop (min (n + 1) len) }) := by
  unfold recv
  simp only [Ctx.log, hs, if_false, Nat.pos_iff_ne_zero.mp hl, hu]

/-- The first answer of a script that is not an interruption. -/
def firstAnswer : List RecvChoice → Option RecvChoice
  | [] => none
  | .eintr :: cs => firstAnswer cs
  | c :: _ => some c

/-- The bytes a `recv` delivered. -/
def RecvResult.bytes : RecvResult → List UInt8
  | .got bs => bs
  | _ => []

@[simp] theorem RecvResult.bytes_got (bs : List UInt8) : (RecvResult.got bs).bytes = bs := rfl

@[simp] theorem RecvResult.bytes_eagain : RecvResult.eagain.bytes = [] := rfl

/-- What a `recv` of `len` bytes under the script `cs` can do: it moves some
of the unread stream to its caller, and touches nothing else. -/
structure RecvPost (len : ℕ) (cs : List RecvChoice) (m : Ctx P σ) (r : RecvResult)
    (m' : Ctx P σ) : Prop where
  conn : m'.conn = m.conn
  app : m'.app = m.app
  alloc : m'.alloc = m.alloc
  halted : m'.halted = m.halted
  script : ∀ c ∈ m'.script, c ∈ cs
  trace : ∃ k, m'.trace = m.trace ++ List.replicate (k + 1) (recvAct len m.conn)
  unread : m.unread = r.bytes ++ m'.unread
  got : ∀ bs, r = .got bs → m.conn.socket ≠ none ∧ bs ≠ [] ∧ bs.length ≤ len
  eof : r = .eof → m.conn.socket ≠ none ∧ (len = 0 ∨ firstAnswer cs = some .eof)
  error : r = .error ↔ m.conn.socket = none ∨ firstAnswer cs = some .error

/-- Without a socket every call fails. -/
theorem recv_post_closed (len : ℕ) (cs : List RecvChoice) {m : Ctx P σ}
    (hs : m.conn.socket = none) : RecvPost len cs m (recv len cs m).1 (recv len cs m).2 := by
  unfold recv
  cases cs with
  | nil | cons c cs =>
    simp only [Ctx.log, hs, if_true]
    constructor <;> simp [RecvResult.bytes, hs]
    exact ⟨0, rfl⟩

theorem recv_post (len : ℕ) (cs : List RecvChoice) (m : Ctx P σ) :
    RecvPost len cs m (recv len cs m).1 (recv len cs m).2 := by
  induction cs generalizing m with
  | nil =>
    by_cases hs : m.conn.socket = none
    · exact recv_post_closed len [] hs
    · unfold recv
      simp only [Ctx.log, hs, if_false]
      constructor <;> simp [RecvResult.bytes, hs, firstAnswer]
      exact ⟨0, rfl⟩
  | cons c cs ih =>
    by_cases hs : m.conn.socket = none
    · exact recv_post_closed len (c :: cs) hs
    · unfold recv
      cases c with
      | eintr =>
        -- the interrupted call leaves one entry in front of the retry's
        simp only [Ctx.log, hs, if_false]
        obtain ⟨hc, ha, hal, hh, hsc, ⟨k, hk⟩, hu, hg, he, her⟩ :=
          ih (m.log (recvAct len m.conn))
        refine ⟨hc, ha, hal, hh, fun c hc => List.mem_cons_of_mem _ (hsc c hc), ⟨k + 1, ?_⟩,
          hu, hg, he, her⟩
        refine hk.trans ?_
        simp [Ctx.log, List.replicate_succ]
      | eagain | eof | error =>
        simp only [Ctx.log, hs, if_false]
        constructor <;> simp +contextual [RecvResult.bytes, hs, firstAnswer]
        exact ⟨0, rfl⟩
      | take n =>
        simp only [Ctx.log, hs, if_false]
        by_cases hl : len = 0
        · simp only [hl, if_true]
          constructor <;> simp +contextual [RecvResult.bytes, hs, firstAnswer]
          exact ⟨0, rfl⟩
        · by_cases hu : m.unread = []
          · simp only [hl, hu, if_true, if_false]
            constructor <;> simp +contextual [RecvResult.bytes, hs, hu, firstAnswer]
            exact ⟨0, rfl⟩
          · simp only [hl, hu, if_false]
            constructor <;> simp +contextual [RecvResult.bytes, hs, hu, firstAnswer]
            · exact ⟨0, rfl⟩
            · omega

theorem recv_post_of_eq {len : ℕ} {cs : List RecvChoice} {m m' : Ctx P σ} {r : RecvResult}
    (h : recv len cs m = (r, m')) : RecvPost len cs m r m' := by
  have hpost := recv_post len cs m
  rwa [h] at hpost

/-- Store received bytes at `_rbuf + _rpos`. -/
def store (bytes : List UInt8) (m : Ctx P σ) : Ctx P σ :=
  { m with conn := { m.conn with
      rbuf := m.conn.rbuf.take m.conn.rpos ++ bytes ++
        m.conn.rbuf.drop (m.conn.rpos + bytes.length)
      rpos := m.conn.rpos + bytes.length } }

theorem store_rbuf_length {bytes : List UInt8} {m : Ctx P σ}
    (hroom : m.conn.rpos + bytes.length ≤ m.conn.rbuf.length) :
    (store bytes m).conn.rbuf.length = m.conn.rbuf.length := by
  show (m.conn.rbuf.take m.conn.rpos ++ bytes ++
    m.conn.rbuf.drop (m.conn.rpos + bytes.length)).length = _
  rw [List.length_append, List.length_append, List.length_take, List.length_drop]
  omega

/-- The `size` bytes at offset `b`. -/
def slice (mem : List UInt8) (b size : ℤ) : List UInt8 :=
  (mem.drop b.toNat).take size.toNat

/-- `ntohl(*((unsigned int*)b))`, when the word lies inside the buffer. -/
def wordAt? (mem : List UInt8) (b : ℤ) : Option ℕ :=
  if 0 ≤ b ∧ b + 4 ≤ mem.length then some (ntohl (mem.drop b.toNat)) else none

/-- `this->whenReceivedFrame(b, size)`. -/
def callFrame (h : IoHooks P σ) (b size : ℤ) (m : Ctx P σ) : Option ℤ × Ctx P σ :=
  let m := m.log (.frame b size m.conn.rpos (slice m.conn.rbuf b size))
  match h.whenReceivedFrame m.conn.rbuf b size m.app with
  | none => (none, m.halt)
  | some (ret, app) => (some ret, { m with app := app })

theorem callFrame_trace (h : IoHooks P σ) (b size : ℤ) (m : Ctx P σ) :
    (callFrame h b size m).2.trace =
      m.trace ++ [.frame b size m.conn.rpos (slice m.conn.rbuf b size)] := by
  unfold callFrame
  rcases e : h.whenReceivedFrame m.conn.rbuf b size m.app with - | ⟨r, w⟩ <;>
    simp [Ctx.log, Ctx.halt, e]

/-- A call leaves the connection alone; it halts the program if the hook
does. -/
theorem callFrame_conn (h : IoHooks P σ) (b size : ℤ) (m : Ctx P σ) :
    (callFrame h b size m).2.conn = m.conn ∧
      ((callFrame h b size m).1 = none → (callFrame h b size m).2.halted = true) := by
  unfold callFrame
  rcases e : h.whenReceivedFrame m.conn.rbuf b size m.app with - | ⟨r, s⟩ <;>
    simp [Ctx.log, Ctx.halt, e]

/-- The hook's answer decides the state behind the hooks. -/
theorem callFrame_app (h : IoHooks P σ) (b size : ℤ) (m : Ctx P σ) :
    (callFrame h b size m).2.app = m.app ∨
      ∃ r, h.whenReceivedFrame m.conn.rbuf b size m.app =
        some (r, (callFrame h b size m).2.app) := by
  unfold callFrame
  rcases e : h.whenReceivedFrame m.conn.rbuf b size m.app with - | ⟨r, s⟩
  · exact Or.inl (by simp [Ctx.log, Ctx.halt, e])
  · exact Or.inr ⟨r, by simp [Ctx.log, e]⟩

/-- Move what the pipelined loop left over to the front of the buffer.  The `memcpy`
is taken to copy the bytes as they were, also where the two ranges overlap, as
`memmove` would. -/
def keepRest (b len : ℤ) (m : Ctx P σ) : Ctx P σ :=
  if 0 ≤ b ∧ 0 ≤ len ∧ b + len ≤ m.conn.rbuf.length then
    { m with conn := { m.conn with
        rbuf := slice m.conn.rbuf b len ++ m.conn.rbuf.drop len.toNat
        rpos := len.toNat
        rsockState := .recvFraming } }
  else m.halt

/-- The loop over pipelined frames: `len` bytes are left at offset `b`, and
`frameSize` is the size of the frame there, as an `int`. -/
def pipelined (h : IoHooks P σ) : ℕ → ℤ → ℤ → ℤ → Ctx P σ → Ctx P σ
  | 0, _, _, _, m => m.halt
  | fuel + 1, b, len, frameSize, m =>
    if len ≥ frameSize then
      match callFrame h b frameSize m with
      | (none, m) => m
      | (some ret, m) =>
        if ret = -1 then resetSocket h m
        -- the next length word is not compared with `FRAME_MAX_SIZE` here
        else if len - frameSize ≥ 4 then
          match wordAt? m.conn.rbuf (b + frameSize) with
          | none => m.halt
          | some w =>
            pipelined h fuel (b + frameSize) (len - frameSize) (toInt32 (w + 4)) m
        else keepRest (b + frameSize) (len - frameSize) m
    else keepRest b len m

/-- The end of `readSocket`: hand over what is complete. -/
def deliver (h : IoHooks P σ) (fuel : ℕ) (m : Ctx P σ) : Ctx P σ :=
  -- exactly one frame, or more than one, or less
  if (m.conn.rpos : ℤ) = toInt32 m.conn.frameSize then
    match callFrame h 0 (toInt32 m.conn.frameSize) m with
    | (none, m) => m
    | (some ret, m) =>
      if ret = -1 then resetSocket h m
      else { m with conn := { m.conn with rpos := 0, rsockState := .recvFraming } }
  else if (m.conn.rpos : ℤ) > toInt32 m.conn.frameSize then
    pipelined h fuel 0 m.conn.rpos (toInt32 m.conn.frameSize) m
  else m

/-- `case SOCKET_DATA_RECV` of `readSocket`. -/
def dataRecv (h : IoHooks P σ) (fuel : ℕ) (m : Ctx P σ) : Ctx P σ :=
  let left := toInt32 ((m.conn.frameSize : ℤ) - m.conn.rpos)
  if left > 0 then
    match recv left.toNat m.script m with
    | (.got bytes, m) => deliver h fuel (store bytes m)
    | (.eof, m) => closeSocket h m
    | (.eagain, m) => m
    | (.error, m) => resetSocket h m
  else deliver h fuel m

/-- Grow `_rbuf` for a frame that does not fit. -/
def growBuffer (newSize : ℕ) (m : Ctx P σ) : Ctx P σ :=
  { m with conn := { m.conn with
      rbuf := m.conn.received ++ List.replicate (newSize - m.conn.rpos) 0
      rsize := newSize } }

/-- The part of `case SOCKET_RECV_FRAMING` after its `recv`: read the length
word, check it, and fall through. -/
def frameHeader (h : IoHooks P σ) (fuel : ℕ) (m : Ctx P σ) : Ctx P σ :=
  if m.conn.rpos < 4 then m
  else
    -- `_frame_size` is unsigned, and the sum wraps around
    let m := { m with conn := { m.conn with
      frameSize := (ntohl m.conn.rbuf + 4) % 2 ^ 32 } }
    if m.conn.frameSize > FRAME_MAX_SIZE then resetSocket h m
    else if toInt32 m.conn.frameSize > m.conn.rsize then
      if m.alloc then
        let m := growBuffer
          (min (m.conn.frameSize + READ_BUFFER_INCREAMENT_SIZE) FRAME_MAX_SIZE) m
        dataRecv h fuel { m with conn := { m.conn with rsockState := .dataRecv } }
      else resetSocket h m
    else dataRecv h fuel { m with conn := { m.conn with rsockState := .dataRecv } }

/-- `case SOCKET_RECV_FRAMING` of `readSocket`.  After a hard error the code
resets the connection and goes on with the bytes it already has. -/
def recvFraming (h : IoHooks P σ) (fuel : ℕ) (m : Ctx P σ) : Ctx P σ :=
  match recv (m.conn.rsize - m.conn.rpos) m.script m with
  | (.got bytes, m) => frameHeader h fuel (store bytes m)
  | (.eof, m) => closeSocket h m
  | (.eagain, m) => frameHeader h fuel m
  -- `break` leaves the inner `switch` only
  | (.error, m) => frameHeader h fuel (resetSocket h m)

/-- `IoConnection::readSocket`. -/
def readSocket (h : IoHooks P σ) (fuel : ℕ) (m : Ctx P σ) : Ctx P σ :=
  match m.conn.rsockState with
  | .recvFraming => recvFraming h fuel m
  | .dataRecv => dataRecv h fuel m
  -- `abort()`
  | _ => m.halt

/-- `IoConnection::readHandler` on a readable socket, with the answers the
kernel gives during this event. -/
def readHandler (h : IoHooks P σ) (fuel : ℕ) (script : List RecvChoice) (m : Ctx P σ) :
    Ctx P σ :=
  if m.halted || m.conn.destroy then m
  else readSocket h fuel { m with script := script }

/-- Read events one after the other. -/
def readEvents (h : IoHooks P σ) (fuel : ℕ) (scripts : List (List RecvChoice))
    (m : Ctx P σ) : Ctx P σ :=
  scripts.foldl (fun m script => readHandler h fuel script m) m

/-- The context of a connection before its first event. -/
def accepted (c : IoConnection P) (s : σ) (alloc : Bool) (stream : List UInt8) : Ctx P σ where
  conn := c
  app := s
  unread := stream
  script := []
  alloc := alloc
  trace := []
  halted := false

/-! ### A rule for read events

A read event is made of a few kinds of steps.  A relation between contexts
that is transitive and holds of each of them holds between the beginning and
the end of every read event. -/

/-- A connection after changes to its read buffer only. -/
structure BufferStep (c c' : IoConnection P) : Prop where
  id : c'.id = c.id
  socket : c'.socket = c.socket
  currentPush : c'.currentPush = c.currentPush
  destroy : c'.destroy = c.destroy

theorem wordAt?_eq_some {mem : List UInt8} {b : ℤ} {w : ℕ}
    (hw : wordAt? mem b = some w) :
    0 ≤ b ∧ b + 4 ≤ mem.length ∧ w = ntohl (mem.drop b.toNat) := by
  unfold wordAt? at hw
  split_ifs at hw with hb
  exact ⟨hb.1, hb.2, (Option.some.inj hw).symm⟩

/-- **One round of the pipelined loop**: the rest is kept, or one frame is
handed over, and then the hook halts or refuses, the next word lies outside
the buffer, the next round begins, or the rest is too short for a word. -/
theorem pipelined_round {h : IoHooks P σ} {Q : Ctx P σ → Prop} {fuel : ℕ} {b len size : ℤ}
    {m : Ctx P σ} (hrest : len < size → Q (keepRest b len m))
    (hnone : size ≤ len → (callFrame h b size m).1 = none → Q (callFrame h b size m).2)
    (hrefused : size ≤ len → (callFrame h b size m).1 = some (-1) →
      Q (resetSocket h (callFrame h b size m).2))
    (hout : size ≤ len → 4 ≤ len - size → Q (callFrame h b size m).2.halt)
    (hnext : ∀ ret w, size ≤ len → (callFrame h b size m).1 = some ret → ret ≠ -1 →
      4 ≤ len - size → wordAt? (callFrame h b size m).2.conn.rbuf (b + size) = some w →
        Q (pipelined h fuel (b + size) (len - size) (toInt32 (w + 4)) (callFrame h b size m).2))
    (hlast : ∀ ret, size ≤ len → (callFrame h b size m).1 = some ret → ret ≠ -1 →
      len - size < 4 → Q (keepRest (b + size) (len - size) (callFrame h b size m).2)) :
    Q (pipelined h (fuel + 1) b len size m) := by
  rw [pipelined]
  split
  · rename_i hfull
    generalize callFrame h b size m = c at hnone hrefused hout hnext hlast ⊢
    obtain ⟨- | ret, m₁⟩ := c
    · exact hnone hfull rfl
    · by_cases hret : ret = -1
      · subst hret
        exact hrefused hfull rfl
      · simp only [hret, if_false]
        split
        · rename_i hmore
          split
          · exact hout hfull hmore
          · rename_i w hword
            exact hnext ret w hfull rfl hret hmore hword
        · rename_i hless
          exact hlast ret hfull rfl hret (not_le.mp hless)
  · rename_i hless
    exact hrest (not_le.mp hless)

/-- **What `deliver` does**: the buffer is one frame, or it begins with one, or
the frame is not complete. -/
theorem deliver_cases {h : IoHooks P σ} {Q : Ctx P σ → Prop} {fuel : ℕ} {m : Ctx P σ}
    (hnone : (m.conn.rpos : ℤ) = toInt32 m.conn.frameSize →
      (callFrame h 0 (toInt32 m.conn.frameSize) m).1 = none →
        Q (callFrame h 0 (toInt32 m.conn.frameSize) m).2)
    (hrefused : (m.conn.rpos : ℤ) = toInt32 m.conn.frameSize →
      (callFrame h 0 (toInt32 m.conn.frameSize) m).1 = some (-1) →
        Q (resetSocket h (callFrame h 0 (toInt32 m.conn.frameSize) m).2))
    (htaken : ∀ ret m₁, (m.conn.rpos : ℤ) = toInt32 m.conn.frameSize →
      callFrame h 0 (toInt32 m.conn.frameSize) m = (some ret, m₁) → ret ≠ -1 →
        Q { m₁ with conn := { m₁.conn with rpos := 0, rsockState := .recvFraming } })
    (hmore : toInt32 m.conn.frameSize < m.conn.rpos →
      Q (pipelined h fuel 0 m.conn.rpos (toInt32 m.conn.frameSize) m))
    (hless : (m.conn.rpos : ℤ) < toInt32 m.conn.frameSize → Q m) : Q (deliver h fuel m) := by
  rw [deliver]
  split
  · rename_i heq
    rcases hcall : callFrame h 0 (toInt32 m.conn.frameSize) m with ⟨- | ret, m₁⟩
    · rw [hcall] at hnone
      exact hnone heq rfl
    · by_cases hret : ret = -1
      · subst hret
        rw [hcall] at hrefused
        exact hrefused heq rfl
      · simp only [hret, if_false]
        exact htaken ret m₁ heq hcall hret
  · rename_i hne
    split
    · rename_i hgt
      exact hmore hgt
    · rename_i hngt
      exact hless (by omega)

/-- The steps of a read event satisfy `R`. -/
structure ReadRule (h : IoHooks P σ) (R : Ctx P σ → Ctx P σ → Prop) : Prop where
  refl : ∀ m, R m m
  trans : ∀ {m m' m''}, R m m' → R m' m'' → R m m''
  recv : ∀ {len cs m r m'}, RecvPost len cs m r m' → R m m'
  frame : ∀ b size m, R m (callFrame h b size m).2
  buffer : ∀ m c, BufferStep m.conn c → R m { m with conn := c }
  script : ∀ (m : Ctx P σ) cs, R m { m with script := cs }
  halt : ∀ m, R m m.halt
  teardown : ∀ reset m, R m (teardown h reset m)

section ReadRule

variable {h : IoHooks P σ} {R : Ctx P σ → Ctx P σ → Prop} (hR : ReadRule h R)

include hR

theorem ReadRule.keepRest (b len : ℤ) (m : Ctx P σ) : R m (keepRest b len m) := by
  unfold Xkim.keepRest
  split
  · exact hR.buffer m _ ⟨rfl, rfl, rfl, rfl⟩
  · exact hR.halt m

theorem ReadRule.pipelined (fuel : ℕ) (b len size : ℤ) (m : Ctx P σ) :
    R m (pipelined h fuel b len size m) := by
  induction fuel generalizing b len size m with
  | zero => exact hR.halt m
  | succ fuel ih =>
    have hcall := hR.frame b size m
    refine pipelined_round (Q := R m) ?_ ?_ ?_ ?_ ?_ ?_
    · exact fun _ => hR.keepRest b len m
    · exact fun _ _ => hcall
    · exact fun _ _ => hR.trans hcall (hR.teardown true _)
    · exact fun _ _ => hR.trans hcall (hR.halt _)
    · exact fun _ _ _ _ _ _ _ => hR.trans hcall (ih _ _ _ _)
    · exact fun _ _ _ _ _ => hR.trans hcall (hR.keepRest _ _ _)

theorem ReadRule.deliver (fuel : ℕ) (m : Ctx P σ) : R m (deliver h fuel m) := by
  have hcall := hR.frame 0 (toInt32 m.conn.frameSize) m
  refine deliver_cases (Q := R m) ?_ ?_ ?_ ?_ ?_
  · exact fun _ _ => hcall
  · exact fun _ _ => hR.trans hcall (hR.teardown true _)
  · intro ret m₁ _ heq _
    rw [heq] at hcall
    exact hR.trans hcall (hR.buffer m₁ _ ⟨rfl, rfl, rfl, rfl⟩)
  · exact fun _ => hR.pipelined fuel _ _ _ m
  · exact fun _ => hR.refl m

theorem ReadRule.dataRecv (fuel : ℕ) (m : Ctx P σ) : R m (dataRecv h fuel m) := by
  unfold Xkim.dataRecv
  dsimp only
  split
  · rcases hrec : Xkim.recv (toInt32 ((m.conn.frameSize : ℤ) - m.conn.rpos)).toNat m.script m
      with ⟨res, m₁⟩
    refine hR.trans (hR.recv (recv_post_of_eq hrec)) ?_
    cases res with
    | got bytes =>
      refine hR.trans (hR.buffer m₁ _ ?_) (hR.deliver fuel (store bytes m₁))
      exact ⟨rfl, rfl, rfl, rfl⟩
    | eof => exact hR.teardown false m₁
    | error => exact hR.teardown true m₁
    | eagain => exact hR.refl m₁
  · exact hR.deliver fuel m

theorem ReadRule.frameHeader (fuel : ℕ) (m : Ctx P σ) : R m (frameHeader h fuel m) := by
  have hdata : ∀ c, BufferStep m.conn c → R m (Xkim.dataRecv h fuel { m with conn := c }) :=
    fun c hc => hR.trans (hR.buffer m c hc) (hR.dataRecv fuel _)
  have hreset : ∀ c, BufferStep m.conn c → R m (resetSocket h { m with conn := c }) :=
    fun c hc => hR.trans (hR.buffer m c hc) (hR.teardown true _)
  unfold Xkim.frameHeader
  split
  · exact hR.refl m
  · dsimp only
    split
    · exact hreset _ ⟨rfl, rfl, rfl, rfl⟩
    · split
      · split
        · exact hdata _ ⟨rfl, rfl, rfl, rfl⟩
        · exact hreset _ ⟨rfl, rfl, rfl, rfl⟩
      · exact hdata _ ⟨rfl, rfl, rfl, rfl⟩

/-- **The rule for read events.** -/
theorem ReadRule.readHandler (fuel : ℕ) (script : List RecvChoice) (m : Ctx P σ) :
    R m (readHandler h fuel script m) := by
  unfold Xkim.readHandler
  split
  · exact hR.refl m
  · refine hR.trans (hR.script m script) ?_
    unfold readSocket
    split
    · unfold recvFraming
      dsimp only
      rcases hrec : Xkim.recv (m.conn.rsize - m.conn.rpos) script { m with script := script }
        with ⟨res, m₁⟩
      refine hR.trans (hR.recv (recv_post_of_eq hrec)) ?_
      cases res with
      | got bytes =>
        refine hR.trans (hR.buffer m₁ _ ?_) (hR.frameHeader fuel (store bytes m₁))
        exact ⟨rfl, rfl, rfl, rfl⟩
      | eof => exact hR.teardown false m₁
      | eagain => exact hR.frameHeader fuel m₁
      | error => exact hR.trans (hR.teardown true m₁) (hR.frameHeader fuel _)
    · exact hR.dataRecv fuel _
    · exact hR.halt _

end ReadRule

/-- A read event only adds to the trace. -/
theorem traceRule (h : IoHooks P σ) : ReadRule h fun m m' => m.trace <+: m'.trace where
  refl _ := List.prefix_refl _
  trans h₁ h₂ := h₁.trans h₂
  recv hpost := by
    obtain ⟨k, hk⟩ := hpost.trace
    rw [hk]
    exact List.prefix_append _ _
  frame b size m := by
    rw [callFrame_trace]
    exact List.prefix_append _ _
  buffer _ _ _ := List.prefix_refl _
  script _ _ := List.prefix_refl _
  halt _ := List.prefix_refl _
  teardown _ _ := List.prefix_append _ _

/-- As long as a read event does not tear the connection down, the state
behind the hooks only changes by accepted calls of `whenReceivedFrame`. -/
theorem frameRule {h : IoHooks P σ} {J : σ → Prop}
    (hJ : ∀ {mem b size s r s'}, J s → h.whenReceivedFrame mem b size s = some (r, s') → J s') :
    ReadRule h fun m m' => m'.conn.destroy = false →
      m.conn.destroy = false ∧ m'.conn.currentPush = m.conn.currentPush ∧
        (J m.app → J m'.app) where
  refl _ hd := ⟨hd, rfl, id⟩
  trans h₁ h₂ hd := by
    obtain ⟨hd', hp', hj'⟩ := h₂ hd
    obtain ⟨hd'', hp, hj⟩ := h₁ hd'
    exact ⟨hd'', hp'.trans hp, hj' ∘ hj⟩
  recv hpost hd := by
    rw [hpost.conn] at hd
    rw [hpost.conn, hpost.app]
    exact ⟨hd, rfl, id⟩
  frame b size m hd := by
    rw [(callFrame_conn h b size m).1] at hd
    rw [(callFrame_conn h b size m).1]
    refine ⟨hd, rfl, fun hj => ?_⟩
    rcases callFrame_app h b size m with happ | ⟨r, happ⟩
    · rw [happ]
      exact hj
    · exact hJ hj happ
  buffer _ _ hc hd := ⟨hc.destroy.symm.trans hd, hc.currentPush, id⟩
  script _ _ hd := ⟨hd, rfl, id⟩
  halt _ hd := ⟨hd, rfl, id⟩
  teardown _ _ hd := nomatch hd

/-! ### Writing -/

/-- `getPushData` into `_current_push`; with nothing to write, the write
event is taken off and the read event is registered again. -/
def nextPush (h : IoHooks P σ) (m : Ctx P σ) : Ctx P σ :=
  match h.getPushData m.app with
  | (some p, app) => { m with conn := { m.conn with currentPush := some p }, app := app }
  | (none, app) =>
    { m with
      conn := { m.conn with currentPush := none, wevent := false, revent := true }
      app := app }

/-- The `send` loop of `writeSocket` on `_current_push = p`. -/
def sendLoop (h : IoHooks P σ) (p : P) : List SendChoice → Ctx P σ → Ctx P σ
  | cs, m =>
    let v := h.view p m.app
    let left := v.wsize - v.wpos
    if left > 0 then
      match cs with
      | [] => m
      | .eintr :: cs => sendLoop h p cs m
      | .eagain :: _ => m
      | .zero :: _ => m
      | .error :: _ => resetSocket h m
      | .put n :: _ =>
        let put := min (n + 1) left.toNat
        let m := { m.log (.send (slice v.wbuf v.wpos put)) with
          app := h.setWpos p (v.wpos + put) m.app }
        if left - put = 0 then nextPush h { m with app := h.destroyMsgData p m.app }
        else m
    else if left = 0 then nextPush h { m with app := h.destroyMsgData p m.app }
    else m

/-- Write what `_current_push` points to, unless it asks to close the
connection. -/
def writeCurrent (h : IoHooks P σ) (sends : List SendChoice) (m : Ctx P σ) : Ctx P σ :=
  match m.conn.currentPush with
  | none => m
  | some p =>
    if (h.view p m.app).closeConn then resetSocket h m
    else sendLoop h p sends m

/-- `case SOCKET_DATA_WRITE` of `writeSocket`. -/
def dataWrite (h : IoHooks P σ) (sends : List SendChoice) (m : Ctx P σ) : Ctx P σ :=
  match m.conn.currentPush with
  | some _ => writeCurrent h sends m
  | none => writeCurrent h sends (nextPush h m)

/-- `IoConnection::writeSocket`; `connected` is the answer of `SO_ERROR` to a
connecting socket. -/
def writeSocket (h : IoHooks P σ) (connected : Bool) (sends : List SendChoice)
    (m : Ctx P σ) : Ctx P σ :=
  match m.conn.wsockState with
  | .connecting =>
    if connected then
      dataWrite h sends { m with conn := { m.conn with wsockState := .dataWrite } }
    else resetSocket h m
  | .dataWrite => dataWrite h sends m
  | _ => resetSocket h m

/-- `setWrite(true)`. -/
def IoConnection.setWrite (c : IoConnection P) : IoConnection P :=
  if c.wsockState = .connecting then c else { c with wevent := true }

/-- `IoConnection::writeHandler` on a writable socket. -/
def writeHandler (h : IoHooks P σ) (connected : Bool) (sends : List SendChoice)
    (m : Ctx P σ) : Ctx P σ :=
  if m.halted || m.conn.destroy then m else writeSocket h connected sends m

/-- Both handlers on `EV_TIMEOUT`: `handleTimeout` resets the connection. -/
def timeoutHandler (h : IoHooks P σ) (m : Ctx P σ) : Ctx P σ :=
  if m.halted || m.conn.destroy then m else resetSocket h m

/-! ### A rule for write events and timeouts -/

/-- The read half of the connection is untouched. -/
structure SameRead (c c' : IoConnection P) : Prop where
  rbuf : c'.rbuf = c.rbuf
  rsize : c'.rsize = c.rsize
  rpos : c'.rpos = c.rpos
  state : c'.rsockState = c.rsockState
  frameSize : c'.frameSize = c.frameSize
  alive : c'.destroy = false → c.destroy = false

theorem SameRead.refl (c : IoConnection P) : SameRead c c := ⟨rfl, rfl, rfl, rfl, rfl, id⟩

theorem SameRead.trans {c c' c'' : IoConnection P} (h₁ : SameRead c c') (h₂ : SameRead c' c'') :
    SameRead c c'' :=
  ⟨h₂.rbuf.trans h₁.rbuf, h₂.rsize.trans h₁.rsize, h₂.rpos.trans h₁.rpos,
    h₂.state.trans h₁.state, h₂.frameSize.trans h₁.frameSize, h₁.alive ∘ h₂.alive⟩

/-- The steps of a write event satisfy `R`. -/
structure WriteRule (h : IoHooks P σ) (R : Ctx P σ → Ctx P σ → Prop) : Prop where
  refl : ∀ m, R m m
  trans : ∀ {m m' m''}, R m m' → R m' m'' → R m m''
  conn : ∀ (m : Ctx P σ) c, SameRead m.conn c → R m { m with conn := c }
  getPushData : ∀ m, R m { m with app := (h.getPushData m.app).2 }
  destroyMsgData : ∀ m p, R m { m with app := h.destroyMsgData p m.app }
  send : ∀ (m : Ctx P σ) p k bytes, R m { m.log (.send bytes) with app := h.setWpos p k m.app }
  teardown : ∀ reset m, R m (teardown h reset m)

section WriteRule

variable {h : IoHooks P σ} {R : Ctx P σ → Ctx P σ → Prop} (hR : WriteRule h R)

include hR

theorem WriteRule.nextPush (m : Ctx P σ) : R m (nextPush h m) := by
  have hget := hR.getPushData m
  unfold Xkim.nextPush
  split
  · rename_i p app hp
    rw [hp] at hget
    exact hR.trans hget (hR.conn { m with app := app } _ ⟨rfl, rfl, rfl, rfl, rfl, id⟩)
  · rename_i app hp
    rw [hp] at hget
    exact hR.trans hget (hR.conn { m with app := app } _ ⟨rfl, rfl, rfl, rfl, rfl, id⟩)

theorem WriteRule.sendLoop (p : P) (cs : List SendChoice) (m : Ctx P σ) :
    R m (sendLoop h p cs m) := by
  have hfinish : ∀ m, R m (Xkim.nextPush h { m with app := h.destroyMsgData p m.app }) :=
    fun m => hR.trans (hR.destroyMsgData m p) (hR.nextPush _)
  induction cs with
  | nil =>
    unfold Xkim.sendLoop
    dsimp only
    split
    · exact hR.refl m
    · split
      · exact hfinish m
      · exact hR.refl m
  | cons c cs ih =>
    unfold Xkim.sendLoop
    dsimp only
    split
    · cases c with
      | eintr => exact ih
      | eagain | zero => exact hR.refl m
      | error => exact hR.teardown true m
      | put n =>
        dsimp only
        split
        · exact hR.trans (hR.send m p _ _) (hfinish _)
        · exact hR.send m p _ _
    · split
      · exact hfinish m
      · exact hR.refl m

theorem WriteRule.writeCurrent (sends : List SendChoice) (m : Ctx P σ) :
    R m (writeCurrent h sends m) := by
  unfold Xkim.writeCurrent
  split
  · exact hR.refl m
  · split
    · exact hR.teardown true m
    · exact hR.sendLoop _ sends m

theorem WriteRule.dataWrite (sends : List SendChoice) (m : Ctx P σ) :
    R m (dataWrite h sends m) := by
  unfold Xkim.dataWrite
  split
  · exact hR.writeCurrent sends m
  · exact hR.trans (hR.nextPush m) (hR.writeCurrent sends _)

/-- **The rule for write events.** -/
theorem WriteRule.writeHandler (connected : Bool) (sends : List SendChoice) (m : Ctx P σ) :
    R m (writeHandler h connected sends m) := by
  unfold Xkim.writeHandler
  split
  · exact hR.refl m
  · unfold writeSocket
    split
    · split
      · refine hR.trans (hR.conn m _ ?_) (hR.dataWrite sends _)
        exact ⟨rfl, rfl, rfl, rfl, rfl, id⟩
      · exact hR.teardown true m
    · exact hR.dataWrite sends m
    · exact hR.teardown true m

theorem WriteRule.timeoutHandler (m : Ctx P σ) : R m (timeoutHandler h m) := by
  unfold Xkim.timeoutHandler
  split
  · exact hR.refl m
  · exact hR.teardown true m

end WriteRule

end Xkim
