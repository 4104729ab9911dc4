/-
MsgHandler/Pipeline.lean

All threads of the message handler together.

    frames -> IoApp -> ImMessageDispatcher -> auth / app workers
                                                  |
       IoApp::push <- MsMessageRouterLocal <- routeBack
            |                    ^
            v                    | failureRoute
       closed connections -> MsMessageCollector

The IO threads, the two worker clusters, the local router and the collector
share the memory of the messages, whose `_next` field links them into one
list or another.  A run is any sequence of steps of these threads.  An IO
thread is the `IoApp` of its own module, with the shared state put in before
and taken out after each of its steps; a step is one event, during which it
only appends to the queues of the others.  The other threads are cut into
steps that perform at most one operation on a queue, the register table or the
collector; what is left to do is in `calls`.

`log` is not part of the program: it records which frames arrived and what
the processors accepted, in this order.
-/
import MsgHandler.IoApp
import MsgHandler.Notify
import MsgHandler.Workers

namespace Xkim

/-! ### The local router and the collector -/

/-- One round of the loop of `MsMessageRouterLocal::Impl::run` over a batch:
each message is moved to the slot of its IO thread.  `none` is the failed
`assert(io < io_count)`. -/
def MsMessageRouterLocal.sort (ioCount : ℕ) :
    ℕ → Option Addr → (ℕ → Links Addr) → Heap → Option ((ℕ → Links Addr) × Heap)
  | 0, _, slots, H => some (slots, H)
  | _ + 1, none, slots, H => some (slots, H)
  | n + 1, some msg, slots, H =>
    let list := H.next msg
    let H := H.setNext msg none
    -- `_io` is an `int`, the index is unsigned
    let io := toUInt32 (H.msg msg).io
    if io < ioCount then
      let r := (slots io).attach H.next msg msg
      sort ioCount n list (Function.update slots io r.2) { H with next := r.1 }
    else none

/-- The slots that are not empty, each with its first message. -/
def MsMessageRouterLocal.filled (ioCount : ℕ) (slots : ℕ → Links Addr) : List (ℕ × Addr) :=
  (List.range ioCount).filterMap fun io => (slots io).head.map fun msg => (io, msg)

/-- Hang `msg` behind the messages of its user, or start a new list. -/
def MsMessageCollector.add (uid : ℤ) (msg : Addr) (H : Heap) :
    List (ℤ × Links Addr) → List (ℤ × Links Addr) × Heap
  | [] => ([(uid, ⟨some msg, some msg⟩)], H)
  | (u, target) :: map =>
    if u = uid then
      let r := target.attach H.next msg msg
      ((u, r.2) :: map, { H with next := r.1 })
    else
      let r := add uid msg H map
      ((u, target) :: r.1, r.2)

/-- The loop of `MsMessageCollector::Impl::run` over a batch: the messages
are grouped by user. -/
def MsMessageCollector.group :
    ℕ → Option Addr → List (ℤ × Links Addr) → Heap → List (ℤ × Links Addr) × Heap
  | 0, _, map, H => (map, H)
  | _ + 1, none, map, H => (map, H)
  | n + 1, some msg, map, H =>
    let list := H.next msg
    let H := H.setNext msg none
    let r := MsMessageCollector.add (H.msg msg).uid msg H map
    group n list r.1 r.2

theorem MsMessageRouterLocal.sort_msg {ioCount n : ℕ} {list : Option Addr}
    {slots : ℕ → Links Addr} {H : Heap} {r : (ℕ → Links Addr) × Heap}
    (h : sort ioCount n list slots H = some r) : r.2.msg = H.msg := by
  induction n generalizing list slots H with
  | zero =>
    obtain rfl := Option.some.inj h
    rfl
  | succ n ih =>
    cases list with
    | none =>
      obtain rfl := Option.some.inj h
      rfl
    | some msg =>
      dsimp only [sort] at h
      split at h
      · have hmsg := ih h
        exact hmsg
      · cases h

theorem MsMessageCollector.add_msg (uid : ℤ) (msg : Addr) (H : Heap)
    (map : List (ℤ × Links Addr)) : (add uid msg H map).2.msg = H.msg := by
  induction map with
  | nil => rfl
  | cons e map ih =>
    dsimp only [add]
    split
    · rfl
    · exact ih

theorem MsMessageCollector.group_msg (n : ℕ) (list : Option Addr) (map : List (ℤ × Links Addr))
    (H : Heap) : (group n list map H).2.msg = H.msg := by
  induction n generalizing list map H with
  | zero => rfl
  | succ n ih =>
    cases list with
    | none => rfl
    | some msg => exact (ih _ _ _).trans (add_msg _ msg _ map)

/-! ### The state -/

/-- What an observer notes: a frame that was passed to the processor, an
accepted IM_AUTH pack, an accepted IM_TOUCH pack, and any pack that
`ImMessageProcessor` accepted. -/
inductive Note
  | received (conn : ℕ) (data : List UInt8)
  | accepted (conn : ℕ) (uid : ℤ) (data : List UInt8)
  | touched (conn : ℕ) (uid : ℤ)
  | handled (conn : ℕ)
  deriving DecidableEq, Repr

/-- How the program was set up: the protobuf runtime, `g_im_instance`, the
number of IO threads with their limits and clocks, and whether
`ImMessageProcessor` has been given a collector. -/
structure Setup where
  codec : Codec
  host : ℕ
  ioCount : ℕ
  limits : ℤ × ℤ × ℤ
  clock : ℕ → ℕ → ℤ
  collects : Bool

/-- The state of all threads. -/
structure Pipeline where
  /-- The IO threads, each without the shared part of its state. -/
  ios : ℕ → IoApp
  heap : Heap
  collector : MsMessageBlockQueue
  /-- `_id` of the accept service -/
  lastId : ℕ
  dispatcher : ImMessageDispatcher
  /-- Messages in the hands of auth and of app workers. -/
  authBusy : List Addr
  appBusy : List Addr
  /-- The calls that workers, the collector and the broker still have to make. -/
  calls : List (List Effect)
  router : ImUserMessageRouter
  /-- The slots the local router still has to dispatch. -/
  slots : List (ℕ × Addr)
  msgQueue : ℕ → MsMessageQueue
  /-- The list an IO thread is pushing. -/
  pushing : ℕ → Option Addr
  /-- The lists the collector thread still has to `collect`. -/
  groups : List Addr
  log : List Note

/-- One step of one thread. -/
inductive Pipeline.Step
  /-- The accept service hands a socket to IO thread `i`. -/
  | accept (i : ℕ) (fd : ℤ)
  /-- IO thread `i` opens the connections that wait for it. -/
  | newConnection (i : ℕ)
  /-- IO thread `i` handles a read, write or timeout event of an object. -/
  | read (i : ℕ) (o : Obj) (fuel : ℕ) (stream : List UInt8) (alloc : Bool)
      (script : List RecvChoice)
  | write (i : ℕ) (o : Obj) (connected : Bool) (sends : List SendChoice)
  | timeout (i : ℕ) (o : Obj)
  /-- IO thread `i` takes its message queue, and pushes one message. -/
  | pushTake (i : ℕ)
  | push (i : ℕ)
  /-- A worker takes a message from its queue. -/
  | authTake
  | appTake
  /-- A worker processes the `k`-th message in hand. -/
  | authProcess (k : ℕ) (now : ℤ)
  | appProcess (k : ℕ) (now : ℤ) (mid : List UInt8) (ret : Bool)
  /-- A thread makes the next of its calls. -/
  | call (k : ℕ)
  /-- The local router takes a batch, and dispatches a slot. -/
  | routerTake
  | routerDispatch
  /-- The collector takes a batch, and collects the messages of a user. -/
  | collectorTake
  | collect (k : ℕ)
  /-- A worker of the broker delivers a message for `uid` from elsewhere. -/
  | deliver (uid : ℤ) (data : List UInt8)

namespace Pipeline

/-- The program before its first step. -/
def start (P : Setup) : Pipeline where
  ios i := IoApp.new i P.limits Heap.empty none (P.clock i)
  heap := Heap.empty
  collector := MsMessageBlockQueue.empty
  lastId := 0
  dispatcher := ImMessageDispatcher.new
  authBusy := []
  appBusy := []
  calls := []
  router := ⟨ImUserChannelRegisterTableLocal.empty, MsMessageBlockQueue.empty⟩
  slots := []
  msgQueue _ := MsMessageQueue.empty
  pushing _ := none
  groups := []
  log := []

/-! ### The IO threads -/

/-- IO thread `i` with the shared state. -/
def thread (s : Pipeline) (i : ℕ) : IoApp :=
  { s.ios i with
    heap := s.heap
    collector := some s.collector
    lastId := s.lastId
    processed := [] }

/-- The dispatcher gets the messages that IO thread passed to it. -/
def dispatch (s : Pipeline) (msgs : List (Addr × IMessage)) : Pipeline :=
  let r := msgs.foldl (fun r e => r.1.process e.1 r.2) (s.dispatcher, s.heap)
  { s with
    dispatcher := r.1
    heap := r.2
    log := s.log ++ msgs.map fun e => .received e.2.conn e.2.data }

/-- The state after IO thread `i` has become `t`. -/
def store (s : Pipeline) (i : ℕ) (t : IoApp) : Pipeline :=
  { s with
    ios := Function.update s.ios i t
    heap := t.heap
    collector := t.collector.getD s.collector
    lastId := t.lastId }.dispatch t.processed

/-- IO thread `i` handles an event, unless it is busy pushing. -/
def ioEvent (s : Pipeline) (i : ℕ) (e : Event) : Option Pipeline :=
  if s.pushing i = none then ((s.thread i).step e).map (s.store i) else none

/-- `IoApp::Impl::push` on the first message of its list. -/
def pushNext (s : Pipeline) (i : ℕ) : Option Pipeline :=
  match s.pushing i with
  | none => none
  | some item =>
    let list := s.heap.next item
    let s := { s with heap := s.heap.setNext item none }
    ((s.thread i).step (.push item)).map fun t =>
      { s.store i t with pushing := Function.update s.pushing i list }

/-! ### The workers -/

/-- What an auth worker accepts. -/
def authNotes (P : Setup) (now : ℤ) (msg : IMessage) : List Note :=
  match ImMessageAuthProcessor.accept P.codec now msg with
  | some reply => [.accepted msg.conn reply.uid msg.data]
  | none => []

/-- The users that an IM_TOUCH pack had registered, with their connections. -/
def touches (r : Processed) : List Note :=
  r.effects.filterMap fun e => match e with
    | .update ch => some (.touched ch.conn ch.uid)
    | _ => none

theorem mem_touches {r : Processed} {note : Note} (h : note ∈ touches r) :
    ∃ ch : IoChannel, note = .touched ch.conn ch.uid := by
  obtain ⟨e, -, hsome⟩ := List.mem_filterMap.mp h
  cases e with
  | update ch => exact ⟨ch, (Option.some.inj hsome).symm⟩
  | _ => cases hsome

/-- What an app worker accepts: any pack is noted, and an IM_TOUCH pack also
with its user. -/
def appNotes (P : Setup) (now : ℤ) (mid : List UInt8) (ret : Bool) (v : Addr) (H : Heap) :
    List Note :=
  match ImMessageProcessor.handle P.codec P.host now mid ret P.collects v H with
  | some r => touches r ++ [.handled (H.msg v).conn]
  | none => []

/-- The worker with the `k`-th message processes it. -/
def authProcess (P : Setup) (s : Pipeline) (k : ℕ) (now : ℤ) : Option Pipeline :=
  s.authBusy[k]?.map fun v =>
    let r := ImMessageAuthProcessor.process P.codec P.host now v s.heap
    { s with
      heap := r.heap
      authBusy := s.authBusy.eraseIdx k
      calls := s.calls ++ [r.effects]
      log := s.log ++ authNotes P now (s.heap.msg v) }

/-- See `authProcess`. -/
def appProcess (P : Setup) (s : Pipeline) (k : ℕ) (now : ℤ) (mid : List UInt8) (ret : Bool) :
    Option Pipeline :=
  s.appBusy[k]?.map fun v =>
    let r := ImMessageProcessor.process P.codec P.host now mid ret P.collects v s.heap
    { s with
      heap := r.heap
      appBusy := s.appBusy.eraseIdx k
      calls := s.calls ++ [r.effects]
      log := s.log ++ appNotes P now mid ret v s.heap }

/-- What a call does. -/
def perform (s : Pipeline) : Effect → Pipeline
  | .update ch =>
    { s with router := { s.router with
        registerTableLocal := s.router.registerTableLocal.set ch.uid ch } }
  | .routeBack v =>
    let r := s.router.routeBack v s.heap
    { s with router := r.1, heap := r.2 }
  | .collect v =>
    let r := s.collector.put v s.heap
    { s with collector := r.1, heap := r.2 }
  | .release v => { s with heap := s.heap.releaseIMessage v }
  | .releaseList v =>
    { s with heap := (s.heap.chainFrom v).foldl Heap.releaseIMessage s.heap }
  -- these leave the process; what comes back is a `deliver` step
  | .publish _ => s
  | .dispatch _ => s

/-- The thread with the `k`-th list of calls makes the first. -/
def call (s : Pipeline) (k : ℕ) : Option Pipeline :=
  match s.calls[k]? with
  | some (e :: rest) => some ({ s with calls := s.calls.set k rest }.perform e)
  | _ => none

/-! ### The router, the collector and the broker -/

/-- The local router takes its queue and sorts it. -/
def routerTake (P : Setup) (s : Pipeline) : Option Pipeline :=
  -- the batch before has been dispatched
  if s.slots = [] then
    s.router.localQueue.get.bind fun r =>
      (MsMessageRouterLocal.sort P.ioCount s.heap.brk (some r.1) (fun _ => Links.empty) s.heap).map
        fun sorted =>
          { s with
            router := { s.router with localQueue := r.2 }
            slots := MsMessageRouterLocal.filled P.ioCount sorted.1
            heap := sorted.2 }
  else none

/-- `dispatchPushList` for the next slot. -/
def routerDispatch (s : Pipeline) : Option Pipeline :=
  match s.slots with
  | [] => none
  | (io, msg) :: slots =>
    let r := (s.msgQueue io).put msg s.heap
    some { s with
      slots := slots
      msgQueue := Function.update s.msgQueue io r.1
      heap := r.2 }

/-- The collector takes its queue and groups it. -/
def collectorTake (s : Pipeline) : Option Pipeline :=
  if s.groups = [] then
    s.collector.get.map fun r =>
      let grouped := MsMessageCollector.group s.heap.brk (some r.1) [] s.heap
      { s with
        collector := r.2
        groups := grouped.1.filterMap fun e => e.2.head
        heap := grouped.2 }
  else none

/-- The look-up of `ImPendingMessageCollectorCore::collect` for a list. -/
def lookUp (s : Pipeline) (msg : Addr) : IoChannel × ImUserMessageRouter × Heap :=
  let max := maxItem s.heap msg (s.heap.chainFrom msg).tail
  s.router.lookUp (s.heap.msg msg).uid (s.heap.msg max).conn msg s.heap

/-- What `collect` does after the look-up: `failureRoute` routes the list if a
channel was found, and returns -1. -/
def collectCalls (channel : IoChannel) (msg : Addr) : List Effect :=
  if channel.uid ≠ -1 then [.routeBack msg, .releaseList msg] else [.releaseList msg]

/-- `ImPendingMessageCollectorCore::collect` for one of the users, in any
order. -/
def collectGroup (s : Pipeline) (k : ℕ) : Option Pipeline :=
  s.groups[k]?.map fun msg =>
    { s with
      groups := s.groups.eraseIdx k
      router := (s.lookUp msg).2.1
      heap := (s.lookUp msg).2.2
      calls := s.calls ++ [collectCalls (s.lookUp msg).1 msg] }

theorem lookUp_table (s : Pipeline) (v : Addr) :
    Rerouted s.router (s.lookUp v).2.1 s.heap (s.lookUp v).2.2 (s.heap.msg v).uid :=
  lookUp_rerouted ..

/-- **The steps of the collector are those of `collect`**, when no other
thread comes in between. -/
theorem collectGroup_calls {s s' : Pipeline} {k : ℕ} {msg : Addr} (hk : s.groups[k]? = some msg)
    (hs' : s.collectGroup k = some s') :
    (((collectCalls (s.lookUp msg).1 msg).foldl perform s').router,
      ((collectCalls (s.lookUp msg).1 msg).foldl perform s').heap) =
      ImPendingMessageCollectorCore.collect s.router msg s.heap := by
  rw [collectGroup, hk] at hs'
  obtain rfl := Option.some.inj hs'
  unfold ImPendingMessageCollectorCore.collect
  dsimp only
  rw [failureRoute_eq, if_pos rfl]
  by_cases hfound : (s.lookUp msg).1.uid ≠ -1
  · rw [collectCalls, if_pos hfound]
    unfold lookUp at hfound
    rw [if_pos hfound]
    rfl
  · rw [collectCalls, if_neg hfound]
    unfold lookUp at hfound
    rw [if_neg hfound]
    rfl

/-- `createLocalMsgPack` and `routeList` for one target: a message for a
registered user is to be routed, others are dropped. -/
def deliver (s : Pipeline) (uid : ℤ) (data : List UInt8) : Pipeline :=
  match s.router.registerTableLocal.map uid with
  | none => s
  | some channel =>
    if channel.uid = -1 then s
    else
      -- a message in fresh memory, which is collected if it cannot be pushed
      let v := s.heap.brk
      let msg := { createIMessageOfLen data.length with
        uid := uid
        needCollect := true
        io := channel.io
        conn := channel.conn }.writeData data
      { s with
        heap := { s.heap.setMsg v msg with
          next := Function.update s.heap.next v none
          brk := v + 1 }
        calls := s.calls ++ [[.routeBack v]] }

/-! ### Steps -/

/-- What a step does; `none` if it cannot be taken. -/
def step (P : Setup) (s : Pipeline) : Step → Option Pipeline
  | .accept i fd => ((s.thread i).step (.accept fd)).map (s.store i)
  | .newConnection i => s.ioEvent i .newConnection
  | .read i o fuel stream alloc script => s.ioEvent i (.read o fuel stream alloc script)
  | .write i o connected sends => s.ioEvent i (.write o connected sends)
  | .timeout i o => s.ioEvent i (.timeout o)
  | .pushTake i =>
    if s.pushing i = none then
      some { s with
        pushing := Function.update s.pushing i (s.msgQueue i).get.1
        msgQueue := Function.update s.msgQueue i (s.msgQueue i).get.2 }
    else none
  | .push i => s.pushNext i
  | .authTake =>
    (s.dispatcher.authWorkers.getCount 1 s.heap).map fun r =>
      { s with
        dispatcher := { s.dispatcher with authWorkers := r.2.1 }
        authBusy := s.authBusy ++ [r.1]
        heap := r.2.2 }
  | .appTake =>
    (s.dispatcher.appWorkers.get s.heap).map fun r =>
      { s with
        dispatcher := { s.dispatcher with appWorkers := r.2.1 }
        appBusy := s.appBusy ++ [r.1]
        heap := r.2.2 }
  | .authProcess k now => s.authProcess P k now
  | .appProcess k now mid ret => s.appProcess P k now mid ret
  | .call k => s.call k
  | .routerTake => s.routerTake P
  | .routerDispatch => s.routerDispatch
  | .collectorTake => s.collectorTake
  | .collect k => s.collectGroup k
  | .deliver uid data => some (s.deliver uid data)

/-! ### What a step can do -/

/-- Messages go from one list to another. -/
structure Moved (s s' : Pipeline) : Prop where
  ios : s'.ios = s.ios
  lastId : s'.lastId = s.lastId
  log : s'.log = s.log
  msg : s'.heap.msg = s.heap.msg
  table : s'.router.registerTableLocal = s.router.registerTableLocal
  calls : s'.calls = s.calls

/-- IO thread `i` handles an event other than a push. -/
structure Handles (s : Pipeline) (i : ℕ) (t : IoApp) (e : Event) : Prop where
  step : (s.thread i).step e = some t
  push : ∀ v, e ≠ .push v
  outside : ∀ H Q, e ≠ .outside H Q

/-- A worker has processed a message: the memory is as it left it, its calls
are planned, and notes were taken. -/
structure Works (s s' : Pipeline) (notes : List Note) (r : Processed) : Prop where
  ios : s'.ios = s.ios
  lastId : s'.lastId = s.lastId
  router : s'.router = s.router
  heap : s'.heap = r.heap
  calls : s'.calls = s.calls ++ [r.effects]
  log : s'.log = s.log ++ notes

/-- The IO thread that takes the step, if it is one. -/
def Step.io : Step → Option ℕ
  | .accept i _ | .newConnection i | .read i _ _ _ _ _ | .write i _ _ _ | .timeout i _
  | .push i => some i
  | _ => none

/-- **What a step can do.**  Most steps of the threads that are not IO threads
only move messages. -/
inductive Change (P : Setup) (s : Pipeline) : Step → Pipeline → Prop
  | io {e : Step} {i : ℕ} {t : IoApp} {ev : Event} (hio : e.io = some i)
      (hev : s.Handles i t ev) : Change P s e (s.store i t)
  | push {i : ℕ} {v : Addr} {t : IoApp} {list : ℕ → Option Addr}
      (ht : ({ s with heap := s.heap.setNext v none }.thread i).step (.push v) = some t) :
      Change P s (.push i)
        { { s with heap := s.heap.setNext v none }.store i t with pushing := list }
  | moved {e : Step} {s' : Pipeline} (h : s.Moved s') : Change P s e s'
  | auth {k : ℕ} {now : ℤ} {v : Addr} {s' : Pipeline}
      (h : s.Works s' (authNotes P now (s.heap.msg v))
        (ImMessageAuthProcessor.process P.codec P.host now v s.heap)) :
      Change P s (.authProcess k now) s'
  | app {k : ℕ} {now : ℤ} {mid : List UInt8} {ret : Bool} {v : Addr} {s' : Pipeline}
      (h : s.Works s' (appNotes P now mid ret v s.heap)
        (ImMessageProcessor.process P.codec P.host now mid ret P.collects v s.heap)) :
      Change P s (.appProcess k now mid ret) s'
  | call {k : ℕ} {e : Effect} {rest : List Effect} (hk : s.calls[k]? = some (e :: rest)) :
      Change P s (.call k) ({ s with calls := s.calls.set k rest }.perform e)
  | collect {k : ℕ} {v : Addr} {groups : List Addr} (hv : v ∈ s.groups) :
      Change P s (.collect k)
        { s with
          groups := groups
          router := (s.lookUp v).2.1
          heap := (s.lookUp v).2.2
          calls := s.calls ++ [collectCalls (s.lookUp v).1 v] }
  | deliver (uid : ℤ) (data : List UInt8) : Change P s (.deliver uid data) (s.deliver uid data)

theorem ioEvent_change {P : Setup} {s s' : Pipeline} {e : Step} {i : ℕ} {ev : Event}
    (hio : e.io = some i) (hpush : ∀ v, ev ≠ .push v) (houtside : ∀ H Q, ev ≠ .outside H Q)
    (h : s.ioEvent i ev = some s') : Change P s e s' := by
  unfold ioEvent at h
  split at h
  · obtain ⟨t, ht, rfl⟩ := Option.map_eq_some_iff.mp h
    exact .io hio ⟨ht, hpush, houtside⟩
  · cases h

theorem routerTake_moved {P : Setup} {s s' : Pipeline} (h : s.routerTake P = some s') :
    s.Moved s' := by
  unfold routerTake at h
  split at h
  · obtain ⟨r, -, hsort⟩ := Option.bind_eq_some_iff.mp h
    obtain ⟨sorted, hsorted, rfl⟩ := Option.map_eq_some_iff.mp hsort
    exact ⟨rfl, rfl, rfl, MsMessageRouterLocal.sort_msg hsorted, rfl, rfl⟩
  · cases h

theorem routerDispatch_moved {s s' : Pipeline} (h : s.routerDispatch = some s') :
    s.Moved s' := by
  unfold routerDispatch at h
  split at h
  · cases h
  · obtain rfl := Option.some.inj h
    exact ⟨rfl, rfl, rfl, rfl, rfl, rfl⟩

theorem collectorTake_moved {s s' : Pipeline} (h : s.collectorTake = some s') : s.Moved s' := by
  unfold collectorTake at h
  split at h
  · obtain ⟨r, -, rfl⟩ := Option.map_eq_some_iff.mp h
    exact ⟨rfl, rfl, rfl, MsMessageCollector.group_msg _ _ _ _, rfl, rfl⟩
  · cases h

/-- Every step is one of these. -/
theorem step_change {P : Setup} {s s' : Pipeline} {e : Step} (h : step P s e = some s') :
    Change P s e s' := by
  cases e with
  | accept i fd =>
    obtain ⟨t, ht, rfl⟩ := Option.map_eq_some_iff.mp h
    exact .io rfl ⟨ht, by rintro _ ⟨⟩, by rintro _ _ ⟨⟩⟩
  | newConnection i | read i o fuel stream alloc script | write i o connected sends
  | timeout i o => exact ioEvent_change rfl (by rintro _ ⟨⟩) (by rintro _ _ ⟨⟩) h
  | pushTake i =>
    dsimp only [step] at h
    split at h
    · obtain rfl := Option.some.inj h
      exact .moved ⟨rfl, rfl, rfl, rfl, rfl, rfl⟩
    · cases h
  | push i =>
    dsimp only [step, pushNext] at h
    split at h
    · cases h
    · obtain ⟨t, ht, rfl⟩ := Option.map_eq_some_iff.mp h
      exact .push ht
  | authTake =>
    obtain ⟨r, hr, rfl⟩ := Option.map_eq_some_iff.mp h
    exact .moved ⟨rfl, rfl, rfl, MsMessageBlockQueue.getCount_msg hr, rfl, rfl⟩
  | appTake =>
    obtain ⟨r, hr, rfl⟩ := Option.map_eq_some_iff.mp h
    exact .moved ⟨rfl, rfl, rfl, MsMessagePriorityQueue.get_msg hr, rfl, rfl⟩
  | authProcess k now =>
    obtain ⟨v, -, rfl⟩ := Option.map_eq_some_iff.mp h
    exact .auth (v := v) ⟨rfl, rfl, rfl, rfl, rfl, rfl⟩
  | appProcess k now mid ret =>
    obtain ⟨v, -, rfl⟩ := Option.map_eq_some_iff.mp h
    exact .app (v := v) ⟨rfl, rfl, rfl, rfl, rfl, rfl⟩
  | call k =>
    dsimp only [step, call] at h
    split at h
    · rename_i hk
      obtain rfl := Option.some.inj h
      exact .call hk
    · cases h
  | routerTake => exact .moved (routerTake_moved h)
  | routerDispatch => exact .moved (routerDispatch_moved h)
  | collectorTake => exact .moved (collectorTake_moved h)
  | collect k =>
    obtain ⟨v, hv, rfl⟩ := Option.map_eq_some_iff.mp h
    exact .collect (List.mem_of_getElem? hv)
  | deliver uid data =>
    obtain rfl := Option.some.inj h
    exact .deliver uid data

/-- What a call leaves alone. -/
theorem perform_rest (s : Pipeline) (e : Effect) :
    (s.perform e).ios = s.ios ∧ (s.perform e).lastId = s.lastId ∧ (s.perform e).log = s.log ∧
      (s.perform e).heap.msg = s.heap.msg := by
  cases e with
  | releaseList v =>
    refine ⟨rfl, rfl, rfl, ?_⟩
    show ((s.heap.chainFrom v).foldl Heap.releaseIMessage s.heap).msg = _
    rw [Heap.foldl_releaseIMessage]
  | _ => exact ⟨rfl, rfl, rfl, rfl⟩

/-- Only processors call `update`. -/
theorem update_not_mem_collectCalls (channel : IoChannel) (v : Addr) (ch : IoChannel) :
    .update ch ∉ collectCalls channel v := by
  unfold collectCalls
  split <;> simp

/-- What a message from the broker leaves alone. -/
theorem deliver_rest (s : Pipeline) (uid : ℤ) (data : List UInt8) :
    (s.deliver uid data).ios = s.ios ∧ (s.deliver uid data).lastId = s.lastId ∧
      (s.deliver uid data).log = s.log ∧ (s.deliver uid data).router = s.router ∧
      ∃ l : List (List Effect), (s.deliver uid data).calls = s.calls ++ l ∧
        ∀ effects ∈ l, ∀ ch, .update ch ∉ effects := by
  have hnone : ∃ l : List (List Effect), s.calls = s.calls ++ l ∧
      ∀ effects ∈ l, ∀ ch, .update ch ∉ effects :=
    ⟨[], (List.append_nil _).symm, fun _ he => nomatch he⟩
  unfold deliver
  split
  · exact ⟨rfl, rfl, rfl, rfl, hnone⟩
  · split
    · exact ⟨rfl, rfl, rfl, rfl, hnone⟩
    · exact ⟨rfl, rfl, rfl, rfl, _, rfl, by simp⟩

/-- **A step leaves the IO threads alone** that do not take it. -/
theorem step_ios {P : Setup} {s s' : Pipeline} {e : Step} {j : ℕ} (h : step P s e = some s')
    (hj : e.io ≠ some j) : s'.ios j = s.ios j := by
  cases step_change h with
  | io hio hev =>
    refine Function.update_of_ne ?_ ..
    rintro rfl
    exact hj hio
  | push ht =>
    refine Function.update_of_ne ?_ ..
    rintro rfl
    exact hj rfl
  | moved h => rw [h.ios]
  | auth h => rw [h.ios]
  | app h => rw [h.ios]
  | call hk => rw [(perform_rest _ _).1]
  | collect hv => rfl
  | deliver uid data => rw [(s.deliver_rest uid data).1]

end Pipeline

end Xkim
