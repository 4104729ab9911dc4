/-
MsgHandler/IoApp.lean

One IO thread: `io::IoApp::Impl` (`framework/io/io_app.cpp`) with its
connection cache (`connection_cache.inl`), its register of online
connections (`connection_register.h`) and the connection objects it hands
out and takes back.

The thread handles one event at a time.  `IoApp.step` is its reaction; an
event is whatever can happen next: the accept thread hands over a socket,
the notify socket of new connections becomes readable, a connection's socket
becomes readable or writable or times out, a message is pushed to a
connection, or the rest of the program changes the memory and the collector's
queue.

The intrusive lists of the cache are lists of nodes here; a node keeps its
address, so that nodes can be told apart.
-/
import MsgHandler.AppConnection
import MsgHandler.Teardown

namespace Xkim

/-! ### The connection cache -/

/-- `ConnectionCache::ConnNode`. -/
structure ConnNode (T : Type) where
  addr : ℕ
  conn : T
  whichLoop : ℕ
  deriving DecidableEq, Repr

/-- `io::ConnectionCache`; `nodes` counts the nodes allocated so far. -/
structure ConnectionCache (T : Type) where
  loopCount : ℕ
  nodes : ℕ
  idleNode : List ℕ
  cache : List (ConnNode T)
  recycled : List (ConnNode T)
  deriving DecidableEq, Repr

namespace ConnectionCache

variable {T : Type}

/-- `ConnectionCache::ConnectionCache`. -/
def new : ConnectionCache T := ⟨0, 0, [], [], []⟩

/-- `recycle(conn)`. -/
def recycle (K : ConnectionCache T) (conn : T) : ConnectionCache T :=
  match K.idleNode with
  | n :: idle =>
    { K with idleNode := idle, recycled := K.recycled ++ [⟨n, conn, K.loopCount⟩] }
  | [] =>
    { K with nodes := K.nodes + 1, recycled := K.recycled ++ [⟨K.nodes, conn, K.loopCount⟩] }

/-- `get()`; the answer is `none` where the code constructs a new
connection. -/
def get (K : ConnectionCache T) : Option T × ConnectionCache T :=
  match K.cache with
  | n :: cache => (some n.conn, { K with cache := cache, idleNode := n.addr :: K.idleNode })
  | [] =>
    -- move what was recycled before the current round of the loop
    match K.recycled.takeWhile (fun n => n.whichLoop < K.loopCount) with
    | [] => (none, K)
    | n :: moved =>
      (some n.conn, { K with
        cache := moved
        recycled := K.recycled.dropWhile (fun n => n.whichLoop < K.loopCount)
        idleNode := n.addr :: K.idleNode })

/-- The connections waiting to be used again. -/
def spare (K : ConnectionCache T) : List T := (K.cache ++ K.recycled).map ConnNode.conn

theorem spare_recycle (K : ConnectionCache T) (conn : T) :
    (K.recycle conn).spare = K.spare ++ [conn] := by
  unfold recycle
  split <;> simp [spare]

/-- `get` takes the first spare connection, or takes none. -/
theorem get_cases (K : ConnectionCache T) :
    (∃ conn K', K.get = (some conn, K') ∧ K.spare = conn :: K'.spare) ∨ K.get = (none, K) := by
  rcases hc : K.cache with - | ⟨n, cache⟩
  · rcases hm : K.recycled.takeWhile (fun n => decide (n.whichLoop < K.loopCount)) with
      - | ⟨n, moved⟩
    · exact Or.inr (by simp only [get, hc, hm])
    · have hsplit := List.takeWhile_append_dropWhile
        (p := fun n : ConnNode T => decide (n.whichLoop < K.loopCount)) (l := K.recycled)
      rw [hm] at hsplit
      refine Or.inl ⟨_, _, by simp only [get, hc, hm]; rfl, ?_⟩
      rw [spare, hc, List.nil_append]
      exact (congrArg (List.map ConnNode.conn) hsplit).symm
  · refine Or.inl ⟨_, _, by simp only [get, hc]; rfl, ?_⟩
    rw [spare, hc]
    rfl

end ConnectionCache

/-! ### The register of online connections -/

/-- `io::ConnectionRegister`. -/
abbrev ConnectionRegister (T : Type) := List (ℕ × T)

namespace ConnectionRegister

variable {T : Type}

/-- `get(key)`. -/
def get (R : ConnectionRegister T) (key : ℕ) : Option T := R.lookup key

/-- `unset(key)`. -/
def unset (R : ConnectionRegister T) (key : ℕ) : ConnectionRegister T :=
  R.filter fun e => e.1 ≠ key

/-- `set(key, conn)`. -/
def set (R : ConnectionRegister T) (key : ℕ) (conn : T) : ConnectionRegister T :=
  (key, conn) :: R.unset key

theorem mem_unset {R : ConnectionRegister T} {key : ℕ} {e : ℕ × T} :
    e ∈ R.unset key ↔ e ∈ R ∧ e.1 ≠ key := by
  simp [unset]

/-- A key is registered once. -/
def Keyed (R : ConnectionRegister T) : Prop := (R.map Prod.fst).Nodup

theorem Keyed.unset {R : ConnectionRegister T} (h : R.Keyed) (key : ℕ) : (R.unset key).Keyed :=
  h.sublist (List.filter_sublist.map Prod.fst)

theorem Keyed.set {R : ConnectionRegister T} (h : R.Keyed) (key : ℕ) (conn : T) :
    (R.set key conn).Keyed := by
  refine List.nodup_cons.mpr ⟨?_, h.unset key⟩
  intro hmem
  obtain ⟨e, he, hk⟩ := List.mem_map.mp hmem
  exact (mem_unset.mp he).2 hk

theorem Keyed.get {R : ConnectionRegister T} (h : R.Keyed) {key : ℕ} {conn : T} :
    R.get key = some conn ↔ (key, conn) ∈ R := by
  induction R with
  | nil => simp [ConnectionRegister.get]
  | cons e R ih =>
    obtain ⟨k, c⟩ := e
    obtain ⟨hk, hR⟩ := List.nodup_cons.mp h
    have ih := ih hR
    unfold ConnectionRegister.get at ih ⊢
    by_cases hkey : key = k
    · subst hkey
      simp only [List.lookup_cons, beq_self_eq_true, Option.some.injEq, List.mem_cons,
        Prod.mk.injEq, true_and]
      refine ⟨fun he => Or.inl he.symm, ?_⟩
      rintro (rfl | hmem)
      · rfl
      · exact absurd (List.mem_map_of_mem hmem) hk
    · have hne : (key == k) = false := beq_eq_false_iff_ne.mpr hkey
      simp [List.lookup_cons, hne, ih, hkey]

/-- Removing a registered key removes one entry. -/
theorem Keyed.length_unset {R : ConnectionRegister T} (h : R.Keyed) {key : ℕ} {conn : T}
    (hmem : (key, conn) ∈ R) : (R.unset key).length + 1 = R.length := by
  induction R with
  | nil => cases hmem
  | cons e R ih =>
    obtain ⟨hk, hR⟩ := List.nodup_cons.mp h
    rcases List.mem_cons.mp hmem with rfl | hmem
    · -- no other entry has this key
      have hrest : R.filter (fun e => decide (e.1 ≠ key)) = R := by
        refine List.filter_eq_self.mpr ?_
        intro e he
        refine decide_eq_true ?_
        intro hkey
        exact hk (List.mem_map.mpr ⟨e, he, hkey⟩)
      rw [ConnectionRegister.unset, List.filter_cons_of_neg (by simp), hrest, List.length_cons]
    · have hne : e.1 ≠ key := by
        intro hkey
        exact hk (List.mem_map.mpr ⟨_, hmem, hkey.symm⟩)
      have hih := ih hR hmem
      unfold ConnectionRegister.unset at hih ⊢
      rw [List.filter_cons_of_pos (by simp [hne]), List.length_cons, hih, List.length_cons]

theorem unset_of_not_mem {R : ConnectionRegister T} {key : ℕ} (h : ∀ e ∈ R, e.1 ≠ key) :
    R.unset key = R :=
  List.filter_eq_self.mpr fun e he => decide_eq_true (h e he)

end ConnectionRegister

/-! ### The thread -/

/-- A connection object. -/
abbrev Obj := ℕ

/-- What the destroy callback of a connection touches. -/
structure IoAppOwner where
  connCount : ℤ
  onlineRegister : ConnectionRegister Obj
  cache : ConnectionCache Obj

/-- `IoApp::Impl::destroy(conn)`, for the object `o` with the given `_id`. -/
def IoAppOwner.destroy (o : Obj) (id : ℕ) (w : IoAppOwner) : IoAppOwner where
  connCount := w.connCount - 1
  onlineRegister := w.onlineRegister.unset id
  cache := w.cache.recycle o

/-- `io::IoApp::Impl`, with the objects and the memory it works on.  `brk`
counts the connection objects constructed so far, `lastId` is the `_id` of
the accept service, and `tears` records how often each object has been torn
down since it was last initialised. -/
structure IoApp where
  id : ℤ
  secondLimit : ℤ
  minuteLimit : ℤ
  hourLimit : ℤ
  owner : IoAppOwner
  objs : Obj → IoConnection Addr × IoAppConnection
  brk : ℕ
  sockQueue : List (ℤ × ℕ)
  lastId : ℕ
  heap : Heap
  collector : Option MsMessageBlockQueue
  processed : List (Addr × IMessage)
  clock : ℕ → ℤ
  tick : ℕ
  tears : Obj → ℕ
  halted : Bool

/-- What can happen next. -/
inductive Event
  | accept (fd : ℤ)
  | acceptElsewhere
  | newConnection
  | read (o : Obj) (fuel : ℕ) (stream : List UInt8) (alloc : Bool) (script : List RecvChoice)
  | write (o : Obj) (connected : Bool) (sends : List SendChoice)
  | timeout (o : Obj)
  | push (v : Addr)
  | outside (H : Heap) (collector : Option MsMessageBlockQueue)

namespace IoApp

/-- A thread that has just been started. -/
def new (id : ℤ) (limits : ℤ × ℤ × ℤ) (H : Heap) (collector : Option MsMessageBlockQueue)
    (clock : ℕ → ℤ) : IoApp where
  id := id
  secondLimit := limits.1
  minuteLimit := limits.2.1
  hourLimit := limits.2.2
  owner := ⟨0, [], ConnectionCache.new⟩
  objs _ := (IoConnection.new Addr, IoAppConnection.new 0)
  brk := 0
  sockQueue := []
  lastId := 0
  heap := H
  collector := collector
  processed := []
  clock := clock
  tick := 0
  tears _ := 0
  halted := false

/-- The id of the next accepted connection: `++_id` on a `uint64_t`. -/
def nextId (s : IoApp) : ℕ := (s.lastId + 1) % 2 ^ 64

/-- The object has been constructed, and its connection is open. -/
def Live (s : IoApp) (o : Obj) : Prop := o < s.brk ∧ (s.objs o).1.destroy = false

instance (s : IoApp) (o : Obj) : Decidable (s.Live o) := inferInstanceAs (Decidable (_ ∧ _))

/-- One round of the loop of `newConnection`: take an object from the cache
or construct one, initialise it and register it. -/
def openConnection (s : IoApp) (sock : ℤ × ℕ) : IoApp :=
  let got := s.owner.cache.get
  let o := got.1.getD s.brk
  -- an object from the cache keeps its buffer and its sampling
  let s := match got.1 with
    | some _ => s
    | none => { s with
        brk := s.brk + 1
        objs := Function.update s.objs s.brk
          (IoConnection.new Addr, IoAppConnection.new (s.clock s.tick))
        tick := s.tick + 1 }
  let base := (s.objs o).1.initializeConn sock.1 s.id sock.2
  let app := { (s.objs o).2.initializeApp s.id sock.2 with
    secondLimit := s.secondLimit, minuteLimit := s.minuteLimit, hourLimit := s.hourLimit }
  { s with
    owner := {
      connCount := s.owner.connCount + 1
      onlineRegister := s.owner.onlineRegister.set sock.2 o
      cache := got.2 }
    objs := Function.update s.objs o ({ base with revent := true }, app)
    -- teardowns are counted for each connection, not for each object
    tears := Function.update s.tears o 0 }

/-- `IoApp::Impl::newConnection`. -/
def newConnection (s : IoApp) : IoApp :=
  let s' := s.sockQueue.foldl openConnection { s with sockQueue := [] }
  { s' with owner := { s'.owner with
      cache := { s'.owner.cache with loopCount := s'.owner.cache.loopCount + 1 } } }

/-- What a handler of the object `o` sees. -/
def ctx (s : IoApp) (o : Obj) (stream : List UInt8) (alloc : Bool) :
    Ctx Addr (AppWorld IoAppOwner) where
  conn := (s.objs o).1
  app := {
    conn := (s.objs o).2
    heap := s.heap
    collector := s.collector
    processed := s.processed
    clock := s.clock
    tick := s.tick
    owner := s.owner }
  unread := stream
  script := []
  alloc := alloc
  trace := []
  halted := s.halted

/-- The thread after a handler of the object `o`. -/
def after (s : IoApp) (o : Obj) (m : Ctx Addr (AppWorld IoAppOwner)) : IoApp :=
  { s with
    owner := m.app.owner
    objs := Function.update s.objs o (m.conn, m.app.conn)
    heap := m.app.heap
    collector := m.app.collector
    processed := m.app.processed
    tick := m.app.tick
    tears := Function.update s.tears o (s.tears o + teardowns m.trace)
    halted := m.halted }

/-- `IoApp::Impl::pushMessage(msg)`. -/
def pushMessage (s : IoApp) (v : Addr) : IoApp :=
  let msg := s.heap.msg v
  match s.owner.onlineRegister.get msg.conn with
  | some o =>
    let m := s.ctx o [] true
    -- `msg->_switch_state(conn, msg->_state)`
    let state := if msg.switchState then msg.state else m.app.conn.state
    let w := { m.app with conn := { m.app.conn with state := state } }
    s.after o { m with conn := m.conn.setWrite, app := w.pushMsgData v }
  | none =>
    -- the connection has been closed in the meantime
    match s.collector with
    | some Q => { s with collector := some (Q.put v s.heap).1, heap := (Q.put v s.heap).2 }
    | none => { s with heap := s.heap.releaseIMessage v }

/-- The reaction of the thread to an event. -/
def step (s : IoApp) (e : Event) : Option IoApp :=
  if s.halted then none
  else
    match e with
    | .accept fd =>
      some { s with lastId := s.nextId, sockQueue := s.sockQueue ++ [(fd, s.nextId)] }
    | .acceptElsewhere => some { s with lastId := s.nextId }
    | .newConnection => some s.newConnection
    | .read o fuel stream alloc script =>
      if o < s.brk then
        some (s.after o (readHandler (appHooks (IoAppOwner.destroy o)) fuel script
          (s.ctx o stream alloc)))
      else none
    | .write o connected sends =>
      if o < s.brk then
        some (s.after o (writeHandler (appHooks (IoAppOwner.destroy o)) connected sends
          (s.ctx o [] true)))
      else none
    | .timeout o =>
      if o < s.brk then
        some (s.after o (timeoutHandler (appHooks (IoAppOwner.destroy o)) (s.ctx o [] true)))
      else none
    | .push v => some (s.pushMessage v)
    | .outside H collector => some { s with heap := H, collector := collector }

/-- What an event can do. -/
inductive Happens (s : IoApp) : Event → IoApp → Prop
  | accept (fd : ℤ) :
      Happens s (.accept fd)
        { s with lastId := s.nextId, sockQueue := s.sockQueue ++ [(fd, s.nextId)] }
  | acceptElsewhere : Happens s .acceptElsewhere { s with lastId := s.nextId }
  | newConnection : Happens s .newConnection s.newConnection
  | read {o : Obj} (ho : o < s.brk) (fuel : ℕ) (stream : List UInt8) (alloc : Bool)
      (script : List RecvChoice) :
      Happens s (.read o fuel stream alloc script)
        (s.after o (readHandler (appHooks (IoAppOwner.destroy o)) fuel script
          (s.ctx o stream alloc)))
  | write {o : Obj} (ho : o < s.brk) (connected : Bool) (sends : List SendChoice) :
      Happens s (.write o connected sends)
        (s.after o (writeHandler (appHooks (IoAppOwner.destroy o)) connected sends
          (s.ctx o [] true)))
  | timeout {o : Obj} (ho : o < s.brk) :
      Happens s (.timeout o)
        (s.after o (timeoutHandler (appHooks (IoAppOwner.destroy o)) (s.ctx o [] true)))
  | push (v : Addr) : Happens s (.push v) (s.pushMessage v)
  | outside (H : Heap) (collector : Option MsMessageBlockQueue) :
      Happens s (.outside H collector) { s with heap := H, collector := collector }

theorem step_happens {s s' : IoApp} {e : Event} (h : s.step e = some s') :
    s.halted = false ∧ Happens s e s' := by
  unfold step at h
  split_ifs at h with hhalt
  refine ⟨eq_false_of_ne_true hhalt, ?_⟩
  cases e with
  | accept fd =>
    obtain rfl := Option.some.inj h
    exact .accept fd
  | acceptElsewhere =>
    obtain rfl := Option.some.inj h
    exact .acceptElsewhere
  | newConnection =>
    obtain rfl := Option.some.inj h
    exact .newConnection
  | read o fuel stream alloc script =>
    dsimp only at h
    split_ifs at h with ho
    obtain rfl := Option.some.inj h
    exact .read ho fuel stream alloc script
  | write o connected sends =>
    dsimp only at h
    split_ifs at h with ho
    obtain rfl := Option.some.inj h
    exact .write ho connected sends
  | timeout o =>
    dsimp only at h
    split_ifs at h with ho
    obtain rfl := Option.some.inj h
    exact .timeout ho
  | push v =>
    obtain rfl := Option.some.inj h
    exact .push v
  | outside H collector =>
    obtain rfl := Option.some.inj h
    exact .outside H collector

end IoApp

end Xkim
