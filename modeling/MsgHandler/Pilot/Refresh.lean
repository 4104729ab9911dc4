/-
MsgHandler/Pilot/Refresh.lean

The two ways in which a changed replica comes into `conn_pool_vec_`
(`process_update_task`, `REFRESH_ALL` and `NODE_VALUE_CHANGED`).

`REFRESH_ALL` makes the pools exactly the replicas of the listing whose status
is not zero (`refreshAll_keys`).  `NODE_VALUE_CHANGED` knows only the new value
of one node: it erases the first pool with the host, the port and the protocol
of this value, and enters a pool if the status is one.  The old value of the
node is not known to it, and neither are the other nodes.

So the two agree under a condition (`valueChanged_agrees_iff`).  If no two
nodes have the same host, port and protocol, it says that the new status is
zero or one, and that a node with a pool keeps its host, port and protocol
(`agrees_iff_of_distinct`).
-/
import MsgHandler.Pilot.Registration
import MsgHandler.Pilot.ReplicaMap

namespace Xkim

namespace Pilot

/-! ### A pool whose connections succeed -/

namespace ConnPool

/-- A client that is given back finds the list longer than it was, or full. -/
theorem releaseClient_len_pos {p : ConnPool} (hp : p.connList.Wf) (hnum : 0 < p.connNum)
    (c : ThriftClient) (h : Clients) : 0 < (p.releaseClient c h).1.connList.len := by
  have hlen := hp.len
  rw [releaseClient_len hp]
  split_ifs with hfull
  · exact hnum.trans hfull
  · omega

theorem initOneConn_of_net (p : ConnPool) (h : Clients) :
    ∃ c h', p.initOneConn (fun _ => true) h = p.releaseClient c h' := by
  unfold initOneConn
  exact ⟨_, _, if_pos rfl⟩

theorem initLoop_len {p : ConnPool} (hp : p.connList.Wf) (hnum : 0 < p.connNum) (n : ℕ) (k : ℤ)
    (h : Clients) (hpos : 0 < p.connList.len ∨ 0 < n) :
    0 < (initLoop (fun _ => true) n k p h).2.1.connList.len := by
  induction n generalizing k p h with
  | zero => exact hpos.resolve_right (lt_irrefl 0)
  | succ n ih =>
    obtain ⟨c, h', hinit⟩ := initOneConn_of_net p h
    rw [initLoop, hinit]
    refine ih (gets_releaseClient hp c h').wf ?_ _ _ (Or.inl (releaseClient_len_pos hp hnum c h'))
    rw [releaseClient_connNum]
    exact hnum

/-- **A new pool has a connection** exactly if it is to have one. -/
theorem new_poolSize_pos_iff (host : List UInt8) (port connNum : ℤ) (tprotocol : List UInt8)
    (h : Clients) :
    0 < (new host port connNum tprotocol (fun _ => true) h).1.poolSize ↔ 0 < connNum := by
  constructor
  · intro hpos
    by_contra hnum
    have hzero : connNum.toNat = 0 := Int.toNat_of_nonpos (not_lt.mp hnum)
    rw [new, init, hzero] at hpos
    exact lt_irrefl _ hpos
  · intro hnum
    exact initLoop_len UnsafeWaitList.wf_empty hnum connNum.toNat 0 h
      (Or.inr (Int.lt_toNat.mpr hnum))

end ConnPool

/-! ### Pools and replicas as keys -/

/-- What a replica is known by. -/
structure ReplicaKey where
  host : List UInt8
  port : ℤ
  protocol : List UInt8
  status : ℤ
  deriving DecidableEq, Repr

def ReplicaInfo.key (ri : ReplicaInfo) : ReplicaKey := ⟨ri.host, ri.port, ri.protocol, ri.status⟩

def ReplicaConnPool.key (rcp : ReplicaConnPool) : ReplicaKey :=
  ⟨rcp.backendReplica.1, rcp.backendReplica.2, rcp.protocol, rcp.status⟩

theorem ReplicaConnPool.listed_iff_key {rcp : ReplicaConnPool} {ri : ReplicaInfo} :
    rcp.listed ri = true ↔ rcp.key = ri.key := by
  simp only [listed, key, ReplicaInfo.key, decide_eq_true_eq, ReplicaKey.mk.injEq]

/-- The key without the status. -/
def ReplicaKey.place (k : ReplicaKey) : List UInt8 × ℤ × List UInt8 := (k.host, k.port, k.protocol)

theorem ReplicaConnPool.same_iff_place {rcp : ReplicaConnPool} {ri : ReplicaInfo} :
    rcp.same ri = true ↔ rcp.key.place = ri.key.place := by
  simp only [same, key, ReplicaInfo.key, ReplicaKey.place, decide_eq_true_eq, Prod.mk.injEq]

/-- The keys of a vector of pools. -/
def poolKeys (V : List ReplicaConnPool) : Finset ReplicaKey := (V.map ReplicaConnPool.key).toFinset

theorem mem_poolKeys {V : List ReplicaConnPool} {k : ReplicaKey} :
    k ∈ poolKeys V ↔ ∃ rcp ∈ V, rcp.key = k := by
  rw [poolKeys, List.mem_toFinset, List.mem_map]

namespace PooledClientImpl

/-- The set of host, port, protocol and status of the pools. -/
def keys (s : PooledClientImpl) : Finset ReplicaKey := poolKeys s.connPoolVec

variable {s : PooledClientImpl} {h : Clients} {k : ReplicaKey}

/-- A pool is entered, if pools are to have connections. -/
theorem mem_pushReplica_keys (ri : ReplicaInfo) :
    k ∈ (s.pushReplica (fun _ => true) ri h).1.keys ↔
      k ∈ s.keys ∨ (0 < s.numClientsPerReplica ∧ k = ri.key) := by
  have hpos := ConnPool.new_poolSize_pos_iff ri.host ri.port s.numClientsPerReplica ri.protocol h
  unfold pushReplica
  dsimp only
  split_ifs with hsize
  · have hnum := hpos.mp hsize
    simp only [keys, mem_poolKeys, List.mem_append, List.mem_singleton, or_and_right, exists_or,
      exists_eq_left, hnum, true_and]
    exact or_congr_right ⟨Eq.symm, Eq.symm⟩
  · have hnum : ¬ 0 < s.numClientsPerReplica := fun hnum => hsize (hpos.mpr hnum)
    simp only [hnum, false_and, or_false]

theorem pushReplica_numClients (ri : ReplicaInfo) :
    (s.pushReplica (fun _ => true) ri h).1.numClientsPerReplica = s.numClientsPerReplica := by
  rcases pushReplica_cases (fun _ => true) ri s h with heq | ⟨p, heq⟩
  · rw [heq]
  · rw [heq]
    rfl

theorem mem_addUnfound_keys (riv : List ReplicaInfo) :
    k ∈ (addUnfound (fun _ => true) riv s h).1.keys ↔
      k ∈ s.keys ∨ (0 < s.numClientsPerReplica ∧ ∃ ri ∈ riv, k = ri.key) := by
  induction riv generalizing s h with
  | nil => simp [addUnfound]
  | cons ri riv ih =>
    rw [addUnfound]
    split_ifs with hfound
    · have hmem : ri.key ∈ s.keys := by
        obtain ⟨rcp, hrcp, hlisted⟩ := List.any_eq_true.mp hfound
        exact mem_poolKeys.mpr ⟨rcp, hrcp, ReplicaConnPool.listed_iff_key.mp hlisted⟩
      rw [ih]
      constructor
      · rintro (hk | ⟨hnum, ri', hri', rfl⟩)
        · exact Or.inl hk
        · exact Or.inr ⟨hnum, ri', List.mem_cons_of_mem _ hri', rfl⟩
      · rintro (hk | ⟨hnum, ri', hri', rfl⟩)
        · exact Or.inl hk
        · rcases List.mem_cons.mp hri' with rfl | hri'
          · exact Or.inl hmem
          · exact Or.inr ⟨hnum, ri', hri', rfl⟩
    · rw [ih, mem_pushReplica_keys, pushReplica_numClients, or_assoc, ← and_or_left]
      simp only [List.exists_mem_cons_iff]

/-- **What `REFRESH_ALL` builds**: of the listing, what had a pool, and all of it if
pools are to have connections. -/
theorem mem_refreshAll_keys (riv : List ReplicaInfo) :
    k ∈ (s.refreshAll (fun _ => true) riv h).1.keys ↔
      (k ∈ s.keys ∨ 0 < s.numClientsPerReplica) ∧ ∃ ri ∈ riv, k = ri.key := by
  unfold refreshAll
  split_ifs with hnil
  · subst hnil
    simp [keys, poolKeys]
  · rw [mem_addUnfound_keys]
    have hkept : k ∈ keys { s with
        connPoolVec := (eraseUnlisted riv s.connPoolVec s.replicaMap h).1
        replicaMap := (eraseUnlisted riv s.connPoolVec s.replicaMap h).2.1 } ↔
          k ∈ s.keys ∧ ∃ ri ∈ riv, k = ri.key := by
      simp only [keys, mem_poolKeys, (eraseUnlisted_spec riv s.connPoolVec s.replicaMap h).1,
        List.mem_filter, Change.keeps, List.any_eq_true, ReplicaConnPool.listed_iff_key]
      constructor
      · rintro ⟨rcp, ⟨hrcp, ri, hri, heq⟩, rfl⟩
        exact ⟨⟨rcp, hrcp, rfl⟩, ri, hri, heq⟩
      · rintro ⟨⟨rcp, hrcp, rfl⟩, ri, hri, heq⟩
        exact ⟨rcp, ⟨hrcp, ri, hri, heq⟩, rfl⟩
    rw [hkept, ← or_and_right]

/-- `NODE_VALUE_CHANGED` takes the key `k` away: it is that of the first pool with the
host, the port and the protocol of the replica, and of no other pool. -/
def Gone (ri : ReplicaInfo) (V : List ReplicaConnPool) (k : ReplicaKey) : Prop :=
  ∃ front rcp back, V = front ++ rcp :: back ∧ (∀ x ∈ front, ¬ x.same ri = true) ∧
    rcp.same ri = true ∧ rcp.key = k ∧ ∀ x ∈ front ++ back, x.key ≠ k

theorem eraseReplica_eq (ri : ReplicaInfo) (V : List ReplicaConnPool) (map : ℕ → Option ℤ)
    (h : Clients) : (eraseReplica ri V map h).1 = V.eraseP (·.same ri) := by
  induction V with
  | nil => rfl
  | cons rcp V ih =>
    rw [eraseReplica]
    split_ifs with hsame
    · exact (@List.eraseP_cons_of_pos _ _ V (·.same ri) hsame).symm
    · rw [@List.eraseP_cons_of_neg _ _ V (·.same ri) hsame]
      exact congrArg (rcp :: ·) ih

theorem mem_eraseP_keys {ri : ReplicaInfo} {V : List ReplicaConnPool} :
    k ∈ poolKeys (V.eraseP (·.same ri)) ↔ k ∈ poolKeys V ∧ ¬ Gone ri V k := by
  constructor
  · intro hk
    obtain ⟨rcp, hrcp, rfl⟩ := mem_poolKeys.mp hk
    refine ⟨mem_poolKeys.mpr ⟨rcp, List.mem_of_mem_eraseP hrcp, rfl⟩, ?_⟩
    rintro ⟨front, first, back, rfl, hfront, hsame, -, hother⟩
    rw [List.eraseP_append_right _ hfront,
      @List.eraseP_cons_of_pos _ _ back (·.same ri) hsame] at hrcp
    exact hother rcp hrcp rfl
  · rintro ⟨hk, hgone⟩
    obtain ⟨rcp, hrcp, rfl⟩ := mem_poolKeys.mp hk
    by_contra hnot
    have hother : ∀ x ∈ V.eraseP (·.same ri), x.key ≠ rcp.key :=
      fun x hx heq => hnot (mem_poolKeys.mpr ⟨x, hx, heq⟩)
    rcases List.exists_or_eq_self_of_eraseP (·.same ri) V with
      heq | ⟨first, front, back, hfront, hsame, rfl, herase⟩
    · rw [heq] at hother
      exact hother rcp hrcp rfl
    · rw [herase] at hother
      refine hgone ⟨front, first, back, rfl, hfront, hsame, ?_, hother⟩
      -- the pool with the key is not one of the others
      rcases List.mem_append.mp hrcp with hfr | hback
      · exact absurd rfl (hother rcp (List.mem_append_left _ hfr))
      · rcases List.mem_cons.mp hback with heq | hbk
        · rw [heq]
        · exact absurd rfl (hother rcp (List.mem_append_right _ hbk))

/-- **What `NODE_VALUE_CHANGED` builds**. -/
theorem mem_nodeValueChanged_keys (ri : ReplicaInfo) :
    k ∈ (s.nodeValueChanged (fun _ => true) ri h).1.keys ↔
      (k ∈ s.keys ∧ ¬ Gone ri s.connPoolVec k) ∨
        (0 < s.numClientsPerReplica ∧ ri.status = 1 ∧ k = ri.key) := by
  have herase : k ∈ keys { s with
      connPoolVec := (eraseReplica ri s.connPoolVec s.replicaMap h).1
      replicaMap := (eraseReplica ri s.connPoolVec s.replicaMap h).2.1 } ↔
        k ∈ s.keys ∧ ¬ Gone ri s.connPoolVec k := by
    simp only [keys, eraseReplica_eq]
    exact mem_eraseP_keys
  unfold nodeValueChanged
  dsimp only
  split_ifs with hstatus
  · rw [mem_pushReplica_keys, herase]
    simp only [hstatus, true_and]
  · rw [herase]
    simp only [hstatus, false_and, and_false, or_false]

end PooledClientImpl

/-! ### The nodes of a service -/

namespace Zk

/-- The value of a node is set. -/
def write (zk : Zk) (child value : List UInt8) : Zk :=
  { zk with getNodevalue := Function.update zk.getNodevalue child (some value) }

/-- ZooKeeper answers every call about the service at `path`, which has these child
nodes; `get_children` puts the path before their names. -/
structure Serves (zk : Zk) (path : List UInt8) (children : List (List UInt8)) : Prop where
  exists_path : zk.nodeExists path = some true
  children_eq : zk.getChildren path = some children
  few : children.length < 2 ^ 31
  exists_child : ∀ c ∈ children, zk.nodeExists c = some true
  value : ∀ c ∈ children, zk.getNodevalue c ≠ none
  below : ∀ c ∈ children, ∃ x, c = path ++ SLASH :: x

/-- The replica that a node names. -/
def replica (H : PilotHost) (zk : Zk) (child : List UInt8) : Option ReplicaInfo :=
  (zk.getNodevalue child).bind (jsonParse H)

/-- One of the nodes names a replica with this key, whose status is not zero. -/
def Live (H : PilotHost) (zk : Zk) (children : List (List UInt8)) (k : ReplicaKey) : Prop :=
  ∃ c ∈ children, ∃ ri, zk.replica H c = some ri ∧ ri.status ≠ 0 ∧ k = ri.key

variable {H : PilotHost} {zk : Zk} {path child value : List UInt8}
  {children : List (List UInt8)} {k : ReplicaKey}

theorem Serves.write (hz : zk.Serves path children) (child value : List UInt8) :
    (zk.write child value).Serves path children := by
  refine ⟨hz.exists_path, hz.children_eq, hz.few, hz.exists_child, ?_, hz.below⟩
  intro c hc
  rcases eq_or_ne c child with rfl | hne
  · simp [Zk.write]
  · simpa [Zk.write, Function.update_of_ne hne] using hz.value c hc

theorem write_replica_self : (zk.write child value).replica H child = jsonParse H value := by
  simp [replica, write]

theorem write_replica_of_ne {c : List UInt8} (hne : c ≠ child) :
    (zk.write child value).replica H c = zk.replica H c := by
  simp [replica, write, Function.update_of_ne hne]

theorem readChildren_eq (hvalue : ∀ c ∈ children, zk.getNodevalue c ≠ none)
    (riv : List ReplicaInfo) :
    readChildren H zk children riv = some (riv ++ children.filterMap (zk.replica H)) := by
  induction children generalizing riv with
  | nil => simp [readChildren]
  | cons c children ih =>
    have hrest := fun riv => ih (fun c' hc' => hvalue c' (List.mem_cons_of_mem _ hc')) riv
    obtain ⟨v, hv⟩ := Option.ne_none_iff_exists'.mp (hvalue c List.mem_cons_self)
    have hc : zk.replica H c = jsonParse H v := by
      rw [replica, hv]
      rfl
    rw [readChildren, hv]
    dsimp only
    cases hparse : jsonParse H v with
    | none =>
      rw [List.filterMap_cons_none (hc.trans hparse)]
      exact hrest riv
    | some tri =>
      rw [List.filterMap_cons_some (hc.trans hparse)]
      dsimp only
      rw [hrest, List.append_assoc, List.singleton_append]

theorem Serves.getAllReplicas (hz : zk.Serves path children) :
    Pilot.getAllReplicas H zk path = some (children.filterMap (zk.replica H)) := by
  rw [Pilot.getAllReplicas, if_pos hz.exists_path, hz.children_eq]
  exact readChildren_eq hz.value []

/-- The nodes besides one, and this one. -/
theorem live_iff (hchild : child ∈ children) :
    zk.Live H children k ↔ zk.Live H (children.filter (· ≠ child)) k ∨
      ∃ ri, zk.replica H child = some ri ∧ ri.status ≠ 0 ∧ k = ri.key := by
  constructor
  · rintro ⟨c, hc, hri⟩
    rcases eq_or_ne c child with rfl | hne
    · exact Or.inr hri
    · exact Or.inl ⟨c, List.mem_filter.mpr ⟨hc, decide_eq_true hne⟩, hri⟩
  · rintro (⟨c, hc, hri⟩ | hri)
    · exact ⟨c, (List.mem_filter.mp hc).1, hri⟩
    · exact ⟨child, hchild, hri⟩

/-- The other nodes keep their replicas. -/
theorem live_write_iff :
    (zk.write child value).Live H (children.filter (· ≠ child)) k ↔
      zk.Live H (children.filter (· ≠ child)) k := by
  have hsame : ∀ c ∈ children.filter (· ≠ child),
      (zk.write child value).replica H c = zk.replica H c :=
    fun c hc => write_replica_of_ne (of_decide_eq_true (List.mem_filter.mp hc).2)
  constructor
  · rintro ⟨c, hc, ri, hri, hrest⟩
    exact ⟨c, hc, ri, (hsame c hc).symm.trans hri, hrest⟩
  · rintro ⟨c, hc, ri, hri, hrest⟩
    exact ⟨c, hc, ri, (hsame c hc).trans hri, hrest⟩

end Zk

/-! ### Both tasks -/

namespace PooledClientImpl

variable {H : PilotHost} {zk : Zk} {s : PooledClientImpl} {h : Clients}
  {children : List (List UInt8)} {child value : List UInt8} {k : ReplicaKey} {new : ReplicaInfo}

theorem mem_process_refreshAll_keys (hz : zk.Serves s.path children) (arg : List UInt8) :
    k ∈ (s.processUpdateTask H zk (fun _ => true) h ⟨.refreshAll, arg⟩).1.1.keys ↔
      (k ∈ s.keys ∨ 0 < s.numClientsPerReplica) ∧ zk.Live H children k := by
  have hread : s.readTask H zk ⟨.refreshAll, arg⟩ =
      (some (.refresh ((children.filterMap (zk.replica H)).filter (·.status ≠ 0))), []) := by
    have hfew := (List.length_filterMap_le (zk.replica H) children).trans_lt hz.few
    have hcount : ¬ toInt32 (children.filterMap (zk.replica H)).length < 0 := by
      rw [toInt32_natCast hfew]
      omega
    simp only [readTask, hz.getAllReplicas, if_neg hcount]
  simp only [processUpdateTask, hread, change]
  rw [mem_refreshAll_keys]
  refine and_congr_right fun _ => ?_
  simp only [Zk.Live, List.mem_filter, List.mem_filterMap, decide_eq_true_eq]
  constructor
  · rintro ⟨ri, ⟨⟨c, hc, hri⟩, hstatus⟩, rfl⟩
    exact ⟨c, hc, ri, hri, hstatus, rfl⟩
  · rintro ⟨c, hc, ri, hri, hstatus, rfl⟩
    exact ⟨ri, ⟨⟨c, hc, hri⟩, hstatus⟩, rfl⟩

theorem mem_process_nodeValueChanged_keys (hH : H.parse [] = none)
    (hz : zk.Serves s.path children) (hchild : child ∈ children)
    (hnew : jsonParse H value = some new) :
    k ∈ (s.processUpdateTask H (zk.write child value) (fun _ => true) h
        ⟨.nodeValueChanged, child⟩).1.1.keys ↔
      (k ∈ s.keys ∧ ¬ Gone new s.connPoolVec k) ∨
        (0 < s.numClientsPerReplica ∧ new.status = 1 ∧ k = new.key) := by
  have hvalue : value ≠ [] := by
    rintro rfl
    rw [jsonParse, hH] at hnew
    cases hnew
  have harg : ¬ (child = [] ∨ child = s.path) := by
    obtain ⟨x, rfl⟩ := hz.below child hchild
    simp
  have hone : getOneReplica H (zk.write child value) child = some new := by
    rw [getOneReplica, if_pos ((hz.write child value).exists_child child hchild)]
    simp only [Zk.write, Function.update_self, if_neg hvalue, hnew]
  simp only [processUpdateTask, readTask, if_neg harg, hone, change]
  exact mem_nodeValueChanged_keys new

/-- **When the two tasks agree**, for the pools `V`, the keys `other` of the other nodes,
and a node whose replica was `old` and is `new`. -/
structure Agrees (other : ReplicaKey → Prop) (old : Option ReplicaInfo) (new : ReplicaInfo)
    (V : List ReplicaConnPool) : Prop where
  /-- The new replica is out of service, or gets a pool, or has one that stays. -/
  entered : new.status = 0 ∨ new.status = 1 ∨
    (new.key ∈ poolKeys V ∧ ¬ Gone new V new.key)
  /-- The pool of the old replica is still right, or it is the one that is erased. -/
  erased : ∀ ri, old = some ri → ri.status ≠ 0 →
    other ri.key ∨ ri.key = new.key ∨ Gone new V ri.key
  /-- The pool of another node is not erased, unless it is entered again. -/
  kept : ∀ k, other k → Gone new V k → k = new.key ∧ new.status = 1

/-- The keys that both tasks should build. -/
theorem agrees_iff {other : ReplicaKey → Prop} {old : Option ReplicaInfo}
    {V : List ReplicaConnPool}
    (hV : ∀ k, k ∈ poolKeys V ↔
      other k ∨ ∃ ri, old = some ri ∧ ri.status ≠ 0 ∧ k = ri.key) :
    Agrees other old new V ↔ ∀ k,
      ((k ∈ poolKeys V ∧ ¬ Gone new V k) ∨ (new.status = 1 ∧ k = new.key)) ↔
        (other k ∨ (new.status ≠ 0 ∧ k = new.key)) := by
  constructor
  · intro ha k
    constructor
    · rintro (⟨hk, hgone⟩ | ⟨hstatus, hk⟩)
      · rcases (hV k).mp hk with hother | ⟨ri, hri, hlive, rfl⟩
        · exact Or.inl hother
        · rcases ha.erased ri hri hlive with hother | heq | hgone'
          · exact Or.inl hother
          · have hstatus : ri.status = new.status := congrArg ReplicaKey.status heq
            exact Or.inr ⟨hstatus ▸ hlive, heq⟩
          · exact absurd hgone' hgone
      · exact Or.inr ⟨by rw [hstatus]; decide, hk⟩
    · rintro (hother | ⟨hstatus, rfl⟩)
      · by_cases hgone : Gone new V k
        · obtain ⟨hk, hone⟩ := ha.kept k hother hgone
          exact Or.inr ⟨hone, hk⟩
        · exact Or.inl ⟨(hV k).mpr (Or.inl hother), hgone⟩
      · rcases ha.entered with hzero | hone | hstays
        · exact absurd hzero hstatus
        · exact Or.inr ⟨hone, rfl⟩
        · exact Or.inl hstays
  · intro hkeys
    refine ⟨?_, ?_, ?_⟩
    · by_cases hstatus : new.status = 0
      · exact Or.inl hstatus
      · rcases (hkeys new.key).mpr (Or.inr ⟨hstatus, rfl⟩) with hstays | ⟨hone, -⟩
        · exact Or.inr (Or.inr hstays)
        · exact Or.inr (Or.inl hone)
    · intro ri hri hlive
      by_cases hgone : Gone new V ri.key
      · exact Or.inr (Or.inr hgone)
      · have hmem := (hV ri.key).mpr (Or.inr ⟨ri, hri, hlive, rfl⟩)
        rcases (hkeys ri.key).mp (Or.inl ⟨hmem, hgone⟩) with hother | ⟨-, heq⟩
        · exact Or.inl hother
        · exact Or.inr (Or.inl heq)
    · intro k hother hgone
      rcases (hkeys k).mpr (Or.inl hother) with ⟨-, hnot⟩ | ⟨hone, hk⟩
      · exact absurd hgone hnot
      · exact ⟨hk, hone⟩

/-- What is erased is at the place of the new replica. -/
theorem Gone.place {V : List ReplicaConnPool} {k : ReplicaKey} (h : Gone new V k) :
    k.place = new.key.place := by
  obtain ⟨front, rcp, back, -, -, hsame, rfl, -⟩ := h
  exact ReplicaConnPool.same_iff_place.mp hsame

/-- A pool that is the only one with its host, port and protocol is erased. -/
theorem gone_of_sole {V : List ReplicaConnPool} (hnodup : (V.map ReplicaConnPool.key).Nodup)
    {rcp : ReplicaConnPool} (hrcp : rcp ∈ V) (hsame : rcp.same new = true)
    (hsole : ∀ x ∈ V, x.same new = true → x.key = rcp.key) : Gone new V rcp.key := by
  obtain ⟨front, back, rfl⟩ := List.append_of_mem hrcp
  have hother : ∀ x ∈ front ++ back, x.key ≠ rcp.key := by
    rw [List.map_append, List.map_cons, List.nodup_middle, List.nodup_cons,
      ← List.map_append] at hnodup
    exact fun x hx heq => hnodup.1 (heq ▸ List.mem_map_of_mem hx)
  refine ⟨front, rcp, back, rfl, ?_, hsame, rfl, hother⟩
  intro x hx hxsame
  exact hother x (List.mem_append_left _ hx) (hsole x (List.mem_append_left _ hx) hxsame)

/-- **The condition for replicas that are told apart** by host, port and protocol: the
new status is zero or one, and a node that had a pool stays where it was. -/
theorem agrees_iff_of_distinct {other : ReplicaKey → Prop} {old : Option ReplicaInfo}
    {V : List ReplicaConnPool} (hnodup : (V.map ReplicaConnPool.key).Nodup)
    (hV : ∀ k, k ∈ poolKeys V ↔ other k ∨ ∃ ri, old = some ri ∧ ri.status ≠ 0 ∧ k = ri.key)
    (hdistinct : ∀ k, other k → k.place ≠ new.key.place ∧
      ∀ ri, old = some ri → k.place ≠ ri.key.place) :
    Agrees other old new V ↔ (new.status = 0 ∨ new.status = 1) ∧
      ∀ ri, old = some ri → ri.status ≠ 0 → ri.key.place = new.key.place := by
  -- the pool of the old replica is the only one at its place
  have hold : ∀ ri, old = some ri → ri.status ≠ 0 → ri.key.place = new.key.place →
      Gone new V ri.key := by
    intro ri hri hlive hplace
    obtain ⟨rcp, hrcp, hkey⟩ :=
      mem_poolKeys.mp ((hV ri.key).mpr (Or.inr ⟨ri, hri, hlive, rfl⟩))
    rw [← hkey] at hplace ⊢
    refine gone_of_sole hnodup hrcp (ReplicaConnPool.same_iff_place.mpr hplace) ?_
    intro x hx hsame
    rcases (hV x.key).mp (mem_poolKeys.mpr ⟨x, hx, rfl⟩) with hother | ⟨ri', hri', -, hx'⟩
    · exact absurd (ReplicaConnPool.same_iff_place.mp hsame) (hdistinct x.key hother).1
    · rw [hx', hkey, Option.some.inj (hri.symm.trans hri')]
  constructor
  · intro ha
    have hstays : ∀ ri, old = some ri → ri.status ≠ 0 → ri.key.place = new.key.place := by
      intro ri hri hlive
      rcases ha.erased ri hri hlive with hother | heq | hg
      · exact absurd rfl ((hdistinct ri.key hother).2 ri hri)
      · rw [heq]
      · exact hg.place
    refine ⟨?_, hstays⟩
    rcases ha.entered with hzero | hone | ⟨hmem, hnot⟩
    · exact Or.inl hzero
    · exact Or.inr hone
    · -- the pool that would stay is that of the old replica, which is erased
      rcases (hV new.key).mp hmem with hother | ⟨ri, hri, hlive, heq⟩
      · exact absurd rfl (hdistinct _ hother).1
      · rw [heq] at hnot
        exact absurd (hold ri hri hlive (hstays ri hri hlive)) hnot
  · rintro ⟨hstatus, hstays⟩
    refine ⟨?_, ?_, ?_⟩
    · exact hstatus.imp_right Or.inl
    · intro ri hri hlive
      exact Or.inr (Or.inr (hold ri hri hlive (hstays ri hri hlive)))
    · intro k hother hg
      exact absurd hg.place (hdistinct k hother).1

/-- **Incremental and full refresh**: where the pools are what `REFRESH_ALL` builds from
the nodes, and the value of one node is set to another replica, the two tasks build the
same set, if every connection succeeds, exactly under the condition `Agrees`, or if there
are to be no connections at all. -/
theorem valueChanged_agrees_iff {h₀ : Clients} (hH : H.parse [] = none)
    (hz : zk.Serves s.path children) (hchild : child ∈ children)
    (hnew : jsonParse H value = some new)
    (hs : s.keys = ((PooledClientImpl.new s.path s.numClientsPerReplica).processUpdateTask H zk
      (fun _ => true) h₀ ⟨.refreshAll, []⟩).1.1.keys) :
    (s.processUpdateTask H (zk.write child value) (fun _ => true) h
        ⟨.nodeValueChanged, child⟩).1.1.keys =
      (s.processUpdateTask H (zk.write child value) (fun _ => true) h
        ⟨.refreshAll, []⟩).1.1.keys ↔
    s.numClientsPerReplica ≤ 0 ∨
      Agrees (zk.Live H (children.filter (· ≠ child))) (zk.replica H child) new
        s.connPoolVec := by
  have hfresh : ∀ k, k ∈ s.keys ↔ 0 < s.numClientsPerReplica ∧ zk.Live H children k := by
    intro k
    have hz' : zk.Serves (PooledClientImpl.new s.path s.numClientsPerReplica).path children := hz
    rw [hs, mem_process_refreshAll_keys hz']
    simp [PooledClientImpl.new, keys, poolKeys]
  rw [Finset.ext_iff]
  simp only [mem_process_nodeValueChanged_keys hH hz hchild hnew,
    mem_process_refreshAll_keys (hz.write child value), Zk.live_iff hchild, Zk.live_write_iff,
    Zk.write_replica_self, hnew]
  rcases le_or_gt s.numClientsPerReplica 0 with hnum | hnum
  · -- no pool has ever been entered
    have hnone : ∀ k, k ∉ s.keys := fun k hk => absurd ((hfresh k).mp hk).1 (not_lt.mpr hnum)
    simp [hnone, hnum, not_lt.mpr hnum]
  · rw [or_iff_right (not_le.mpr hnum), agrees_iff (fun k => ?_)]
    · simp [hnum, keys]
    · rw [← Zk.live_iff hchild]
      exact (hfresh k).trans (and_iff_right hnum)

end PooledClientImpl

/-! ### Two nodes -/

theorem namedZk_serves (path : List UInt8) {nodes : List (List UInt8 × List UInt8)}
    (hfew : nodes.length < 2 ^ 31) :
    (namedZk path nodes).Serves path (nodes.map fun n => path ++ SLASH :: n.1) := by
  refine ⟨by simp [namedZk], if_pos rfl, by rwa [List.length_map], ?_, ?_, ?_⟩
  · intro c hc
    obtain ⟨n, hn, rfl⟩ := List.mem_map.mp hc
    have hnode : ∃ m ∈ nodes, path ++ 47 :: m.1 = path ++ SLASH :: n.1 := ⟨n, hn, rfl⟩
    exact congrArg some (decide_eq_true (Or.inr hnode))
  · intro c hc
    obtain ⟨n, hn, rfl⟩ := List.mem_map.mp hc
    have hnode : ∃ x, (n.1, x) ∈ nodes := ⟨n.2, hn⟩
    simpa [namedZk, SLASH] using hnode
  · intro c hc
    obtain ⟨n, -, rfl⟩ := List.mem_map.mp hc
    exact ⟨n.1, rfl⟩

/-- The nodes `a` and `b`, each with a replica whose status is one. -/
def twoNodes : Zk := listing [server 1, server 2]

/-- The client after its first `REFRESH_ALL`. -/
def twoPools : PooledClientImpl × Clients :=
  ((PooledClientImpl.new rpcPath 1).processUpdateTask smallHost twoNodes (fun _ => true)
    ⟨0, []⟩ ⟨.refreshAll, []⟩).1

/-- The keys after the value of the node `a` was set and the task was processed. -/
def afterChange (value : JsonValue) (type : UpdateTaskType) : Finset ReplicaKey :=
  (twoPools.1.processUpdateTask smallHost
    (twoNodes.write (rpcPath ++ [SLASH, 97]) value.text) (fun _ => true) twoPools.2
    ⟨type, if type = .refreshAll then [] else rpcPath ++ [SLASH, 97]⟩).1.1.keys

theorem twoNodes_serves : twoNodes.Serves rpcPath
    [rpcPath ++ [SLASH, 97], rpcPath ++ [SLASH, 98]] :=
  namedZk_serves rpcPath (by decide)

/-- Besides `a` there is only `b`. -/
theorem twoNodes_live {k : ReplicaKey} (hk : twoNodes.Live smallHost
      ([rpcPath ++ [SLASH, 97], rpcPath ++ [SLASH, 98]].filter
        (· ≠ rpcPath ++ [SLASH, 97])) k) :
    k = ⟨address 2, 80, TBINARY_PROTOCOL, 1⟩ := by
  obtain ⟨c, hc, ri, hri, -, rfl⟩ := hk
  obtain rfl : c = rpcPath ++ [SLASH, 98] := by
    simpa using hc
  obtain rfl := Option.some.inj hri
  rfl

/-- The replica of `a` goes out of service. -/
theorem valueChanged_agrees_out_of_service :
    afterChange { server 1 with status := 0 } .nodeValueChanged =
      afterChange { server 1 with status := 0 } .refreshAll := by
  refine (PooledClientImpl.valueChanged_agrees_iff rfl twoNodes_serves List.mem_cons_self rfl
    rfl).mpr
    (Or.inr ((PooledClientImpl.agrees_iff_of_distinct (by decide +kernel) (fun k => ?_) ?_).mpr
      ⟨Or.inl rfl, ?_⟩))
  · rw [← Zk.live_iff List.mem_cons_self]
    exact (PooledClientImpl.mem_process_refreshAll_keys twoNodes_serves []).trans
      (and_iff_right (Or.inr one_pos))
  · intro k hk
    rw [twoNodes_live hk]
    refine ⟨by decide, fun ri hri => ?_⟩
    obtain rfl := Option.some.inj hri
    decide
  · intro ri hri _
    obtain rfl := Option.some.inj hri
    rfl

/-- The replica of `a` gets another status than zero and one, or another port. -/
theorem valueChanged_disagrees :
    afterChange { server 1 with status := 2 } .nodeValueChanged ≠
        afterChange { server 1 with status := 2 } .refreshAll ∧
      afterChange { server 1 with port := 81 } .nodeValueChanged ≠
        afterChange { server 1 with port := 81 } .refreshAll := by
  decide +kernel

end Pilot

end Xkim
