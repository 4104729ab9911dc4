/-
MsgHandler/Pilot/Service.lean

The threads that use the pools of a service.

Clients are taken by `acquire_thrift_client()` and given back by
`release_thrift_client(client, error)`, while the update thread processes its
tasks.  The steps are those that a lock or an atomic operation makes one:

* a call of `acquire_thrift_client()` holds the reader lock from its beginning
  to its end; it takes a value of the shared counter in one step and tries the
  pool with this index in the next;
* `release_thrift_client` looks for the pool of the client in one step, under
  the reader lock, and uses the index that it found in another, without a lock;
* an update task makes its change under the writer lock.

`turn k` is the next step of the `k`-th call of `acquire_thrift_client()`, which
does nothing when the call has returned.  A step that would read outside of the
vector sets `faulted`, and nothing happens after that.
-/
import MsgHandler.Pilot.PooledClient
import MsgHandler.Run

namespace Xkim

namespace Pilot

/-- A call of `acquire_thrift_client()`: before the test of its loop, before the
pool with the index it has taken is tried, or at its end. -/
inductive Acquire
  | next (i : ℕ)
  | visit (i : ℕ) (hostIdx : BitVec 32)
  | returned (result : Option ThriftClient)
  deriving DecidableEq, Repr

/-- The call has not returned. -/
def Acquire.running : Acquire → Bool
  | .next _ | .visit .. => true
  | .returned _ => false

/-- A call of `release_thrift_client(client, error)` after its look-up. -/
structure Release where
  client : ThriftClient
  error : ConnErrorStatus
  found : Option ℕ
  deriving DecidableEq, Repr

/-- The pools, the clients that are in use, and the calls in progress; `net`
says which clients can connect at present. -/
structure Service where
  pooled : PooledClientImpl
  clients : Clients
  net : ℕ → Bool
  held : List ThriftClient
  acquiring : List Acquire
  releasing : List Release
  faulted : Bool

inductive Event
  | network (net : ℕ → Bool)
  | update (task : UpdateTask) (zk : Zk)
  | acquire
  | turn (k : ℕ) (out : Outside)
  | release (k : ℕ) (isOpen : Bool) (error : ConnErrorStatus)
  | finish (k : ℕ) (out : Outside)

namespace Service

/-- No replica is known yet, and nothing is in use. -/
def start (path : List UInt8) (numClientsPerReplica : ℤ) : Service where
  pooled := PooledClientImpl.new path numClientsPerReplica
  clients := ⟨0, []⟩
  net _ := false
  held := []
  acquiring := []
  releasing := []
  faulted := false

/-- `conn_pool_vec_`. -/
abbrev vec (s : Service) : List ReplicaConnPool := s.pooled.connPoolVec

/-- Some call holds the reader lock. -/
def readLocked (s : Service) : Bool := s.acquiring.any Acquire.running

/-- The next step of the `k`-th call of `acquire_thrift_client()`. -/
def turn (k : ℕ) (out : Outside) (s : Service) : Acquire → Service
  | .next i =>
    if i < s.vec.length then
      -- `atomic_add(cur_replica_index_)`
      { s with
        pooled := { s.pooled with curReplicaIndex := s.pooled.curReplicaIndex + 1 }
        acquiring := s.acquiring.set k (.visit i s.pooled.curReplicaIndex) }
    else { s with acquiring := s.acquiring.set k (.returned none) }
  | .visit i hostIdx =>
    match s.pooled.tryReplica s.net out hostIdx s.clients with
    | none => { s with faulted := true }
    | some (none, pooled, clients) =>
      { s with
        pooled := pooled
        clients := clients
        acquiring := s.acquiring.set k (.next (i + 1)) }
    | some (some c, pooled, clients) =>
      { s with
        pooled := pooled
        clients := clients
        held := s.held ++ [c]
        acquiring := s.acquiring.set k (.returned (some c)) }
  | .returned _ => s

/-- The client `c` is given back: its call has looked for the pool. -/
def release (k : ℕ) (c : ThriftClient) (error : ConnErrorStatus) (s : Service) : Service :=
  { s with
    held := s.held.eraseIdx k
    releasing := s.releasing ++ [⟨c, error, s.pooled.findReplica c⟩] }

/-- The second part of the call `r` of `release_thrift_client`. -/
def finish (k : ℕ) (out : Outside) (r : Release) (s : Service) : Service :=
  let s' := { s with releasing := s.releasing.eraseIdx k }
  match r.found with
  | none => { s' with clients := s.clients.delete r.client }
  | some i =>
    match s.pooled.putBack s.net out i r.client r.error s.clients with
    | none => { s' with faulted := true }
    | some (pooled, clients) => { s' with pooled := pooled, clients := clients }

/-- What the event does, if it can happen. -/
def handle (H : PilotHost) (s : Service) : Event → Option Service
  | .network net => some { s with net := net }
  | .update task zk =>
    if s.readLocked then none
    else
      let r := (s.pooled.processUpdateTask H zk s.net s.clients task).1
      some { s with pooled := r.1, clients := r.2 }
  | .acquire => some { s with acquiring := s.acquiring ++ [.next 0] }
  | .turn k out => s.acquiring[k]?.map fun a => s.turn k out a
  -- the transport may have been closed or opened while the client was in use
  | .release k isOpen error =>
    s.held[k]?.map fun c => s.release k { c with isOpen := isOpen } error
  | .finish k out => s.releasing[k]?.map fun r => s.finish k out r

def step (H : PilotHost) (s : Service) (e : Event) : Option Service :=
  if s.faulted then none else s.handle H e

variable {H : PilotHost} {s s' : Service}

/-- What an event can do. -/
inductive Happens (H : PilotHost) (s : Service) : Event → Service → Prop
  | network (net : ℕ → Bool) : Happens H s (.network net) { s with net := net }
  | idle {task : UpdateTask} {zk : Zk} (hread : (s.pooled.readTask H zk task).1 = none) :
      Happens H s (.update task zk) s
  | change {task : UpdateTask} {zk : Zk} {c : Change} (hlock : s.readLocked = false)
      (hread : (s.pooled.readTask H zk task).1 = some c) :
      Happens H s (.update task zk) { s with
        pooled := (s.pooled.change s.net s.clients c).1
        clients := (s.pooled.change s.net s.clients c).2 }
  | acquire : Happens H s .acquire { s with acquiring := s.acquiring ++ [.next 0] }
  | turn {k : ℕ} {a : Acquire} (out : Outside) (ha : s.acquiring[k]? = some a) :
      Happens H s (.turn k out) (s.turn k out a)
  | release {k : ℕ} {c : ThriftClient} (isOpen : Bool) (error : ConnErrorStatus)
      (hc : s.held[k]? = some c) :
      Happens H s (.release k isOpen error) (s.release k { c with isOpen := isOpen } error)
  | finish {k : ℕ} {r : Release} (out : Outside) (hr : s.releasing[k]? = some r) :
      Happens H s (.finish k out) (s.finish k out r)

theorem step_happens {e : Event} (h : step H s e = some s') :
    s.faulted = false ∧ Happens H s e s' := by
  by_cases hfault : s.faulted = true
  · rw [step, if_pos hfault] at h
    cases h
  rw [step, if_neg hfault] at h
  refine ⟨eq_false_of_ne_true hfault, ?_⟩
  unfold handle at h
  cases e with
  | network net =>
    obtain rfl := Option.some.inj h
    exact .network net
  | update task zk =>
    dsimp only at h
    split_ifs at h with hlock
    obtain rfl := Option.some.inj h
    unfold PooledClientImpl.processUpdateTask
    rcases hread : s.pooled.readTask H zk task with ⟨- | c, puts⟩
    · exact .idle (by rw [hread])
    · exact .change (eq_false_of_ne_true hlock) (by rw [hread])
  | acquire =>
    obtain rfl := Option.some.inj h
    exact .acquire
  | turn k out =>
    obtain ⟨a, ha, rfl⟩ := Option.map_eq_some_iff.mp h
    exact .turn out ha
  | release k isOpen error =>
    obtain ⟨c, hc, rfl⟩ := Option.map_eq_some_iff.mp h
    exact .release isOpen error hc
  | finish k out =>
    obtain ⟨r, hr, rfl⟩ := Option.map_eq_some_iff.mp h
    exact .finish out hr

/-! ### Schedules -/

/-- `n` calls of `acquire_thrift_client()` one after the other, the first of which
is the `k`-th, each of which makes one round. -/
def calls (k n : ℕ) : List Event :=
  (List.range n).flatMap fun i => [.acquire, .turn (k + i) plainOutside, .turn (k + i) plainOutside]

/-- Every connection succeeds, the servers are listed, and `n` clients are
taken. -/
def taking (servers : List JsonValue) (n : ℕ) : List Event :=
  [.network fun _ => true, .update ⟨.refreshAll, []⟩ (listing servers)] ++ calls 0 n

end Service

end Pilot

end Xkim
