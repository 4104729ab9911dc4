/-
MsgHandler/Pilot/PooledClient.lean

The pools of all replicas of a service (`thrift/pilot/pooled_client.{h,inl}`).

A replica registers itself as a child node in ZooKeeper, with a JSON value that
names its ip, port, protocol and status.  `process_update_task` reads these
values and brings `conn_pool_vec_` up to date: `REFRESH_ALL` compares the whole
listing with the vector, `NODE_VALUE_CHANGED` erases the replica of one node
and enters it again.  `replica_map_` leads from the id of a replica, which
`genReplicId` makes from its ip and port, to its position in the vector.

What ZooKeeper answers (`Zk`), the JSON reader and `inet_pton` (`PilotHost`)
are arguments.  A pool is destroyed when its element leaves the vector, so it
is modelled as a part of the element.  An access outside of the vector is
undefined behaviour; a function that may make one returns `none` for it.
-/
import MsgHandler.Pilot.ConnPool

namespace Xkim

namespace Pilot

/-! ### What the nodes say -/

/-- The fields of the JSON value of a node. -/
structure JsonValue where
  ip : List UInt8
  port : ℤ
  protocol : List UInt8
  status : ℤ
  deriving DecidableEq, Repr

/-- The library functions `inet_pton` and `Json::Reader::parse`. -/
structure PilotHost where
  inetPton : List UInt8 → Option (BitVec 32)
  parse : List UInt8 → Option JsonValue

/-- What the calls to ZooKeeper return; `none` is an `rc` other than `ZOK`. -/
structure Zk where
  nodeExists : List UInt8 → Option Bool
  getChildren : List UInt8 → Option (List (List UInt8))
  getNodevalue : List UInt8 → Option (List UInt8)

structure ReplicaInfo where
  host : List UInt8
  port : ℤ
  replicaId : ℕ
  protocol : List UInt8
  status : ℤ
  deriving DecidableEq, Repr

/-- `genReplicId`; the `int` port is extended to 64 bits with its sign. -/
def genReplicId (H : PilotHost) (host : List UInt8) (port : ℤ) : ℕ :=
  match H.inetPton host with
  | some ip => (ip.toNat <<< 32) ||| toUInt64 port
  | none => 0

def jsonParse (H : PilotHost) (src : List UInt8) : Option ReplicaInfo :=
  match H.parse src with
  | none => none
  | some value =>
    let id := genReplicId H value.ip value.port
    if id = 0 then none else some ⟨value.ip, value.port, id, value.protocol, value.status⟩

/-- The loop of `get_all_replicas` over the child nodes. -/
def readChildren (H : PilotHost) (zk : Zk) :
    List (List UInt8) → List ReplicaInfo → Option (List ReplicaInfo)
  | [], riv => some riv
  | child :: children, riv =>
    match zk.getNodevalue child with
    | none => none
    | some value =>
      match jsonParse H value with
      | none => readChildren H zk children riv
      | some tri => readChildren H zk children (riv ++ [tri])

/-- `get_all_replicas`; `none` is the return value -1. -/
def getAllReplicas (H : PilotHost) (zk : Zk) (path : List UInt8) : Option (List ReplicaInfo) :=
  if zk.nodeExists path = some true then
    match zk.getChildren path with
    | none => none
    | some children => readChildren H zk children []
  else none

/-- `get_one_replica`; `none` is the return value 0. -/
def getOneReplica (H : PilotHost) (zk : Zk) (path : List UInt8) : Option ReplicaInfo :=
  if zk.nodeExists path = some true then
    match zk.getNodevalue path with
    | none => none
    | some value => if value = [] then none else jsonParse H value
  else none

/-- The id of a replica is made from its host and port. -/
def ReplicaInfo.Identified (H : PilotHost) (ri : ReplicaInfo) : Prop :=
  ri.replicaId = genReplicId H ri.host ri.port

theorem jsonParse_identified {H : PilotHost} {src : List UInt8} {ri : ReplicaInfo}
    (h : jsonParse H src = some ri) : ri.Identified H := by
  unfold jsonParse at h
  split at h
  · cases h
  · dsimp only at h
    split_ifs at h
    obtain rfl := Option.some.inj h
    rfl

theorem readChildren_identified {H : PilotHost} {zk : Zk} {children : List (List UInt8)}
    {riv riv' : List ReplicaInfo} (hriv : ∀ ri ∈ riv, ri.Identified H)
    (h : readChildren H zk children riv = some riv') : ∀ ri ∈ riv', ri.Identified H := by
  induction children generalizing riv with
  | nil =>
    obtain rfl := Option.some.inj h
    exact hriv
  | cons child children ih =>
    rw [readChildren] at h
    split at h
    · cases h
    · split at h
      · exact ih hriv h
      · rename_i tri htri
        refine ih ?_ h
        intro ri hri
        rcases List.mem_append.mp hri with hri | hri
        · exact hriv ri hri
        · rw [List.mem_singleton.mp hri]
          exact jsonParse_identified htri

theorem getAllReplicas_identified {H : PilotHost} {zk : Zk} {path : List UInt8}
    {riv : List ReplicaInfo} (h : getAllReplicas H zk path = some riv) :
    ∀ ri ∈ riv, ri.Identified H := by
  unfold getAllReplicas at h
  split_ifs at h
  split at h
  · cases h
  · exact readChildren_identified (by simp) h

theorem getOneReplica_identified {H : PilotHost} {zk : Zk} {path : List UInt8}
    {ri : ReplicaInfo} (h : getOneReplica H zk path = some ri) : ri.Identified H := by
  unfold getOneReplica at h
  split_ifs at h
  split at h
  · cases h
  · split_ifs at h
    exact jsonParse_identified h

/-! ### The pools -/

structure ReplicaConnPool where
  backendReplica : List UInt8 × ℤ
  replicaId : ℕ
  index : ℤ
  protocol : List UInt8
  status : ℤ
  connPool : ConnPool

/-- The comparison of host, port and protocol. -/
def ReplicaConnPool.same (rcp : ReplicaConnPool) (ri : ReplicaInfo) : Bool :=
  rcp.backendReplica.1 = ri.host ∧ rcp.backendReplica.2 = ri.port ∧ rcp.protocol = ri.protocol

/-- The comparison of host, port, protocol and status. -/
def ReplicaConnPool.listed (rcp : ReplicaConnPool) (ri : ReplicaInfo) : Bool :=
  rcp.backendReplica.1 = ri.host ∧ rcp.backendReplica.2 = ri.port ∧ rcp.protocol = ri.protocol ∧
    rcp.status = ri.status

/-- `PooledClientImpl`, less what belongs to its update thread. -/
structure PooledClientImpl where
  connPoolVec : List ReplicaConnPool
  replicaMap : ℕ → Option ℤ
  numClientsPerReplica : ℤ
  path : List UInt8
  curReplicaIndex : BitVec 32

namespace PooledClientImpl

/-- The constructor. -/
def new (path : List UInt8) (numClientsPerReplica : ℤ) : PooledClientImpl :=
  ⟨[], fun _ => none, numClientsPerReplica, path, 0⟩

/-- The first loop of `REFRESH_ALL`: what is not in the listing is erased. -/
def eraseUnlisted (riv : List ReplicaInfo) :
    List ReplicaConnPool → (ℕ → Option ℤ) → Clients →
      List ReplicaConnPool × (ℕ → Option ℤ) × Clients
  | [], map, h => ([], map, h)
  | rcp :: rest, map, h =>
    if riv.any rcp.listed then
      let r := eraseUnlisted riv rest map h
      (rcp :: r.1, r.2)
    else
      eraseUnlisted riv rest (Function.update map rcp.replicaId none) (rcp.connPool.destroy h)

/-- The loop of `NODE_VALUE_CHANGED`: the first pool of the replica is erased. -/
def eraseReplica (ri : ReplicaInfo) :
    List ReplicaConnPool → (ℕ → Option ℤ) → Clients →
      List ReplicaConnPool × (ℕ → Option ℤ) × Clients
  | [], map, h => ([], map, h)
  | rcp :: rest, map, h =>
    if rcp.same ri then
      (rest, Function.update map rcp.replicaId none, rcp.connPool.destroy h)
    else
      let r := eraseReplica ri rest map h
      (rcp :: r.1, r.2)

/-- A pool for the replica is created, and entered if it has a connection. -/
def pushReplica (net : ℕ → Bool) (ri : ReplicaInfo) (s : PooledClientImpl) (h : Clients) :
    PooledClientImpl × Clients :=
  let r := ConnPool.new ri.host ri.port s.numClientsPerReplica ri.protocol net h
  if 0 < r.1.poolSize then
    let index := toInt32 s.connPoolVec.length
    ({ s with
      replicaMap := Function.update s.replicaMap ri.replicaId (some index)
      connPoolVec := s.connPoolVec ++
        [⟨(ri.host, ri.port), ri.replicaId, index, ri.protocol, ri.status, r.1⟩] }, r.2)
  else (s, r.1.destroy r.2)

/-- The second loop of `REFRESH_ALL`: what has no pool yet gets one. -/
def addUnfound (net : ℕ → Bool) :
    List ReplicaInfo → PooledClientImpl → Clients → PooledClientImpl × Clients
  | [], s, h => (s, h)
  | ri :: riv, s, h =>
    if s.connPoolVec.any (·.listed ri) then addUnfound net riv s h
    else
      let r := s.pushReplica net ri h
      addUnfound net riv r.1 r.2

/-- The end of the pools that are in the vector when it is cleared. -/
def destroyAll : List ReplicaConnPool → Clients → Clients
  | [], h => h
  | rcp :: rest, h => destroyAll rest (rcp.connPool.destroy h)

/-- `REFRESH_ALL` under the writer lock, for the replicas whose status is not
zero. -/
def refreshAll (net : ℕ → Bool) (riv : List ReplicaInfo) (s : PooledClientImpl) (h : Clients) :
    PooledClientImpl × Clients :=
  if riv = [] then
    ({ s with connPoolVec := [], replicaMap := fun _ => none }, destroyAll s.connPoolVec h)
  else
    let r := eraseUnlisted riv s.connPoolVec s.replicaMap h
    addUnfound net riv { s with connPoolVec := r.1, replicaMap := r.2.1 } r.2.2

/-- `NODE_VALUE_CHANGED` under the writer lock. -/
def nodeValueChanged (net : ℕ → Bool) (ri : ReplicaInfo) (s : PooledClientImpl) (h : Clients) :
    PooledClientImpl × Clients :=
  let r := eraseReplica ri s.connPoolVec s.replicaMap h
  let s' := { s with connPoolVec := r.1, replicaMap := r.2.1 }
  if ri.status = 1 then s'.pushReplica net ri r.2.2 else (s', r.2.2)

end PooledClientImpl

/-! ### Taking a client and giving it back -/

/-- What the world outside gives to one call: the time at each reading of the
clock, and whether a second `open` and a `close` succeed. -/
structure Outside where
  now : Timeval
  later : Timeval
  again : Timeval
  retry : Bool
  closes : Bool
  deriving DecidableEq, Repr

/-- One round of the loop of `acquire_thrift_client()`, for a pool whose status
is not zero. -/
def ConnPool.tryAcquire (net : ℕ → Bool) (out : Outside) (p : ConnPool) (h : Clients) :
    Option ThriftClient × ConnPool × Clients :=
  match p.isHealthy out.now with
  | .healthy => p.handOut net out.retry h
  | .notHealthyButCanHaveatry =>
    let r := p.refresh net h
    let p' := if r.1 then r.2.1 else r.2.1.reportError out.later
    p'.handOut net out.retry r.2.2
  | .notHealthyAndCannotBeUsedTemp | .dead => (none, p, h)

/-- The same in `acquire_thrift_client(uint64_t)`, where the pool must be
HEALTHY after a refresh. -/
def ConnPool.tryAcquireId (net : ℕ → Bool) (out : Outside) (p : ConnPool) (h : Clients) :
    Option ThriftClient × ConnPool × Clients :=
  if p.isHealthy out.now = .notHealthyButCanHaveatry then
    let r := p.refresh net h
    let p' := if r.1 then r.2.1 else r.2.1.reportError out.later
    if p'.isHealthy out.again = .healthy then p'.handOut net out.retry r.2.2
    else (none, p', r.2.2)
  else if p.isHealthy out.now = .healthy then p.handOut net out.retry h
  else (none, p, h)

/-- `close_service`, then `open_service`. -/
def ThriftClient.reconnect (net : ℕ → Bool) (out : Outside) (c : ThriftClient) : ThriftClient :=
  ((c.closeService out.closes).2.openService (net c.serial)).2

namespace PooledClientImpl

/-- The pool at the position `i` has changed. -/
def setPool (s : PooledClientImpl) (i : ℕ) (rcp : ReplicaConnPool) (p : ConnPool) :
    PooledClientImpl :=
  { s with connPoolVec := s.connPoolVec.set i { rcp with connPool := p } }

/-- `host_idx % conn_pool_vec_.size()`, where the `int32_t` is first converted to
`size_t`. -/
def slot (size : ℕ) (hostIdx : BitVec 32) : ℕ := toUInt64 hostIdx.toInt % size

/-- `conn_pool_vec_[host_idx % conn_pool_vec_.size()]` is tried. -/
def tryReplica (net : ℕ → Bool) (out : Outside) (hostIdx : BitVec 32) (s : PooledClientImpl)
    (h : Clients) : Option (Option ThriftClient × PooledClientImpl × Clients) :=
  match s.connPoolVec[slot s.connPoolVec.length hostIdx]? with
  | none => none
  | some rcp =>
    if rcp.status = 0 then some (none, s, h)
    else
      let r := rcp.connPool.tryAcquire net out h
      some (r.1, s.setPool (slot s.connPoolVec.length hostIdx) rcp r.2.1, r.2.2)

/-- `acquire_thrift_client(uint64_t)`. -/
def acquireThriftClientId (net : ℕ → Bool) (out : Outside) (replicaId : ℕ) (s : PooledClientImpl)
    (h : Clients) : Option (Option ThriftClient × PooledClientImpl × Clients) :=
  match s.replicaMap replicaId with
  | none => some (none, s, h)
  | some it =>
    match s.connPoolVec[toUInt64 it]? with
    | none => none
    | some rcp =>
      if rcp.replicaId = replicaId ∧ rcp.status = 1 then
        let r := rcp.connPool.tryAcquireId net out h
        some (r.1, s.setPool (toUInt64 it) rcp r.2.1, r.2.2)
      else some (none, s, h)

/-- `release_thrift_client(uint64_t, ..)` for a client other than `NULL`. -/
def releaseThriftClientId (net : ℕ → Bool) (out : Outside) (replicaId : ℕ) (c : ThriftClient)
    (error : ConnErrorStatus) (s : PooledClientImpl) (h : Clients) :
    Option (Bool × PooledClientImpl × Clients) :=
  match s.replicaMap replicaId with
  | none => some (false, s, h.delete c)
  | some it =>
    match s.connPoolVec[toUInt64 it]? with
    | none => none
    | some rcp =>
      if rcp.replicaId = replicaId ∧ rcp.backendReplica = c.getReplica then
        let r :=
          if error = .connOk then (rcp.connPool.clearError out.now).releaseClient c h
          else rcp.connPool.releaseClient (c.reconnect net out) h
        some (true, s.setPool (toUInt64 it) rcp r.1, r.2)
      else some (false, s, h.delete c)

/-- The look-up of `release_thrift_client(client, error)`. -/
def findReplica (s : PooledClientImpl) (c : ThriftClient) : Option ℕ :=
  s.connPoolVec.findIdx? fun rcp => rcp.backendReplica = c.getReplica

/-- The use of the index after the look-up. -/
def putBack (net : ℕ → Bool) (out : Outside) (i : ℕ) (c : ThriftClient) (error : ConnErrorStatus)
    (s : PooledClientImpl) (h : Clients) : Option (PooledClientImpl × Clients) :=
  match s.connPoolVec[i]? with
  | none => none
  | some rcp =>
    match error with
    | .connOk =>
      let r := (rcp.connPool.clearError out.now).releaseClient c h
      some (s.setPool i rcp r.1, r.2)
    | .connDrop => some (s.setPool i rcp (rcp.connPool.reportError out.now), h.delete c)
    | .connReconnect =>
      let r := rcp.connPool.releaseClient (c.reconnect net out) h
      some (s.setPool i rcp r.1, r.2)

end PooledClientImpl

/-! ### Update tasks -/

/-- `UpdateTaskManager::UpdateTaskType`. -/
inductive UpdateTaskType
  | refreshAll
  | timedRefreshAll
  | sessionExpired
  | nodeCreated
  | nodeValueChanged
  | nodeDeleted
  | childChanged
  | exit
  deriving DecidableEq, Repr

structure UpdateTask where
  taskType : UpdateTaskType
  taskArg : List UInt8
  deriving DecidableEq, Repr

/-- What a task asks to be done under the writer lock. -/
inductive Change
  | refresh (riv : List ReplicaInfo)
  | value (ri : ReplicaInfo)
  deriving DecidableEq, Repr

/-- The change leaves the pool in the vector. -/
def Change.keeps : Change → ReplicaConnPool → Bool
  | .refresh riv, rcp => riv.any rcp.listed
  | .value ri, rcp => !rcp.same ri

/-- The replicas that a change is about. -/
def Change.replicas : Change → List ReplicaInfo
  | .refresh riv => riv
  | .value ri => [ri]

namespace PooledClientImpl

/-- The part of `process_update_task` before the writer lock is taken: what is
to be done, and the tasks that are put into the queue instead. -/
def readTask (H : PilotHost) (zk : Zk) (s : PooledClientImpl) (task : UpdateTask) :
    Option Change × List UpdateTask :=
  match task.taskType with
  | .refreshAll =>
    match getAllReplicas H zk s.path with
    | none => (none, [])
    | some riv =>
      -- the number of replicas is returned as an `int32_t`
      if toInt32 riv.length < 0 then (none, [])
      else (some (.refresh (riv.filter (·.status ≠ 0))), [])
  | .nodeCreated | .childChanged =>
    if task.taskArg = [] ∨ task.taskArg ≠ s.path then (none, [])
    else (none, [⟨.refreshAll, []⟩])
  | .nodeValueChanged =>
    if task.taskArg = [] ∨ task.taskArg = s.path then (none, [])
    else
      match getOneReplica H zk task.taskArg with
      | none => (none, [])
      | some ri => (some (.value ri), [])
  -- NODE_DELETED returns at once
  | .nodeDeleted | .timedRefreshAll | .sessionExpired | .exit => (none, [])

/-- The part under the writer lock. -/
def change (net : ℕ → Bool) (s : PooledClientImpl) (h : Clients) : Change →
    PooledClientImpl × Clients
  | .refresh riv => s.refreshAll net riv h
  | .value ri => s.nodeValueChanged net ri h

/-- `process_update_task`: the pools afterwards, and the tasks it puts. -/
def processUpdateTask (H : PilotHost) (zk : Zk) (net : ℕ → Bool) (s : PooledClientImpl)
    (h : Clients) (task : UpdateTask) : (PooledClientImpl × Clients) × List UpdateTask :=
  match s.readTask H zk task with
  | (none, puts) => ((s, h), puts)
  | (some c, puts) => (s.change net h c, puts)

theorem readTask_identified {H : PilotHost} {zk : Zk} {s : PooledClientImpl} {task : UpdateTask}
    {c : Change} (hc : (s.readTask H zk task).1 = some c) :
    ∀ ri ∈ c.replicas, ri.Identified H := by
  unfold readTask at hc
  split at hc
  · split at hc
    · cases hc
    · rename_i riv hriv
      split_ifs at hc
      obtain rfl := Option.some.inj hc
      exact fun ri hri => getAllReplicas_identified hriv ri (List.mem_filter.mp hri).1
  all_goals try split_ifs at hc
  all_goals try cases hc
  split at hc
  · cases hc
  · rename_i ri hri
    obtain rfl := Option.some.inj hc
    intro ri' hri'
    rw [List.mem_singleton.mp hri']
    exact getOneReplica_identified hri

end PooledClientImpl

/-! ### A small service -/

/-- The bytes of a text. -/
def ascii (text : String) : List UInt8 := text.toList.map fun c => UInt8.ofNat c.toNat

/-- `%d`, for a number that is not negative. -/
def decimal (n : ℕ) : List UInt8 := (Nat.toDigits 10 n).map fun c => UInt8.ofNat c.toNat

/-- The value of a node, as `ServerCluster` writes it. -/
def JsonValue.text (v : JsonValue) : List UInt8 :=
  ascii "\x7b\"ip\":\"" ++ v.ip ++ ascii "\",\"port\":" ++ decimal v.port.toNat ++
    ascii ",\"protocol\":\"" ++ v.protocol ++ ascii "\",\"status\":" ++
    decimal v.status.toNat ++ ascii "\x7d"

/-- The address `10.0.0.n`. -/
def address (n : ℕ) : List UInt8 := ascii "10.0.0." ++ decimal n

/-- `TBINARY_PROTOCOL`. -/
def TBINARY_PROTOCOL : List UInt8 := ascii "TBinaryProtocol"

/-- `TCOMPACT_PROTOCOL`. -/
def TCOMPACT_PROTOCOL : List UInt8 := ascii "TCompactProtocol"

/-- A server at this address, which is in service. -/
def server (n : ℕ) : JsonValue := ⟨address n, 80, TBINARY_PROTOCOL, 1⟩

/-- Another one at the first address, with the other protocol. -/
def compactServer : JsonValue := { server 1 with protocol := TCOMPACT_PROTOCOL }

/-- What the library functions make of the addresses and the values of a few
servers.  `inet_pton` writes the bytes of the address in their order, so that the
last of them is the highest of the number. -/
def smallHost : PilotHost where
  inetPton host :=
    ((List.range 6).find? fun n => address n = host).map fun n => BitVec.ofNat 32 (n <<< 24 + 10)
  parse src :=
    [server 1, server 2, server 3, { server 4 with status := 2 }, { server 5 with status := 0 },
      { server 1 with status := 0 }, { server 1 with status := 2 }, { server 1 with port := 81 },
      compactServer].find? fun v => v.text = src

/-- The path `/jdns/a/rpc`. -/
def rpcPath : List UInt8 := ascii "/jdns/a/rpc"

/-- A service whose child nodes have these names and values; `get_children` puts the path
before the names. -/
def namedZk (path : List UInt8) (nodes : List (List UInt8 × List UInt8)) : Zk where
  nodeExists p := some (p = path ∨ ∃ n ∈ nodes, path ++ 47 :: n.1 = p)
  getChildren p := if p = path then some (nodes.map fun n => path ++ 47 :: n.1) else none
  getNodevalue p := (nodes.find? fun n => path ++ 47 :: n.1 = p).map (·.2)

/-- The nodes `a`, `b` and so on of these servers. -/
def listing (vs : List JsonValue) : Zk :=
  namedZk rpcPath (vs.zipIdx.map fun e => ([97 + UInt8.ofNat e.2], e.1.text))

/-- Nothing fails, at time zero. -/
def plainOutside : Outside := ⟨⟨0, 0⟩, ⟨0, 0⟩, ⟨0, 0⟩, true, true⟩

end Pilot

end Xkim
