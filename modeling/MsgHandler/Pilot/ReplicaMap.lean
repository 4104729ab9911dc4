/-
MsgHandler/Pilot/ReplicaMap.lean

Where `replica_map_` leads (`thrift/pilot/pooled_client.inl`,
`process_update_task`).

`replica_map_` is an index on the side of `conn_pool_vec_`.  An update task
erases pools from anywhere in the vector, which moves the pools behind them,
and takes only the ids of the erased pools out of the map.  So after a task the
map is right if and only if the task erased no pool that stood in front of a
pool it kept (`always_pointed_iff`), as long as different replicas have
different ids and the positions fit into an `int32_t`.
-/
import MsgHandler.Pilot.PooledClient
import MsgHandler.Run
import MsgHandler.SideIndex

namespace Xkim

namespace Pilot

theorem ReplicaConnPool.listed_iff {rcp : ReplicaConnPool} {ri : ReplicaInfo} :
    rcp.listed ri = true ↔ rcp.backendReplica = (ri.host, ri.port) ∧ rcp.protocol = ri.protocol ∧
      rcp.status = ri.status := by
  simp only [listed, decide_eq_true_eq, Prod.ext_iff, and_assoc]

theorem ReplicaConnPool.same_iff {rcp : ReplicaConnPool} {ri : ReplicaInfo} :
    rcp.same ri = true ↔ rcp.backendReplica = (ri.host, ri.port) ∧
      rcp.protocol = ri.protocol := by
  simp only [same, decide_eq_true_eq, Prod.ext_iff, and_assoc]

namespace PooledClientImpl

variable {H : PilotHost} {s : PooledClientImpl}

/-- `replica_map_`, as positions of the vector. -/
def positions (s : PooledClientImpl) : ℕ → Option ℕ :=
  fun id => (s.replicaMap id).map toUInt64

/-- Every entry of the map leads to a pool with its id, and the id of every pool
is in the map. -/
def Pointed (s : PooledClientImpl) : Prop :=
  Indexes ReplicaConnPool.replicaId s.connPoolVec s.positions

/-- The functions that are given an id stay inside of the vector, and the id of
every pool leads to a pool of this replica. -/
structure Served (s : PooledClientImpl) : Prop where
  acquire : ∀ net out id h, (s.acquireThriftClientId net out id h).isSome
  release : ∀ net out id c error h, (s.releaseThriftClientId net out id c error h).isSome
  finds : ∀ rcp ∈ s.connPoolVec, ∃ it rcp', s.replicaMap rcp.replicaId = some it ∧
    s.connPoolVec[toUInt64 it]? = some rcp' ∧ rcp'.replicaId = rcp.replicaId

theorem Pointed.served (hs : s.Pointed) : s.Served := by
  have hin : ∀ id it, s.replicaMap id = some it →
      ∃ rcp, s.connPoolVec[toUInt64 it]? = some rcp ∧ rcp.replicaId = id := by
    intro id it hit
    exact hs.sound id (toUInt64 it) (by rw [positions, hit]; rfl)
  refine ⟨?_, ?_, ?_⟩
  · intro net out id h
    unfold acquireThriftClientId
    split
    · rfl
    · rename_i it hit
      obtain ⟨rcp, hrcp, -⟩ := hin id it hit
      rw [hrcp]
      dsimp only
      split_ifs <;> rfl
  · intro net out id c error h
    unfold releaseThriftClientId
    split
    · rfl
    · rename_i it hit
      obtain ⟨rcp, hrcp, -⟩ := hin id it hit
      rw [hrcp]
      dsimp only
      split_ifs <;> rfl
  · intro rcp hrcp
    obtain ⟨i, hi⟩ := hs.complete rcp hrcp
    obtain ⟨it, hit, -⟩ := Option.map_eq_some_iff.mp hi
    exact ⟨it, (hin _ it hit).choose, hit, (hin _ it hit).choose_spec⟩

/-! ### Erasing pools -/

theorem eraseUnlisted_spec (riv : List ReplicaInfo) (xs : List ReplicaConnPool)
    (map : ℕ → Option ℤ) (h : Clients) :
    (eraseUnlisted riv xs map h).1 = xs.filter (Change.refresh riv).keeps ∧
      Forgets ReplicaConnPool.replicaId (Change.refresh riv).keeps xs map
        (eraseUnlisted riv xs map h).2.1 := by
  induction xs generalizing map h with
  | nil => exact ⟨rfl, Forgets.nil⟩
  | cons rcp xs ih =>
    rw [eraseUnlisted]
    split_ifs with hlisted
    · have hkeep : (Change.refresh riv).keeps rcp = true := hlisted
      rw [List.filter_cons_of_pos hkeep]
      exact ⟨congrArg (rcp :: ·) (ih map h).1, (ih map h).2.kept hkeep⟩
    · have hkeep : (Change.refresh riv).keeps rcp ≠ true := hlisted
      rw [List.filter_cons_of_neg hkeep]
      exact ⟨(ih _ _).1, (ih _ _).2.gone_cons hkeep⟩

/-- `NODE_VALUE_CHANGED` erases one pool, so all pools of the replica when there
is at most one. -/
theorem eraseReplica_spec (ri : ReplicaInfo) {xs : List ReplicaConnPool}
    (hone : xs.Pairwise fun a b => a.same ri = true → ¬b.same ri = true) (map : ℕ → Option ℤ)
    (h : Clients) :
    (eraseReplica ri xs map h).1 = xs.filter (Change.value ri).keeps ∧
      Forgets ReplicaConnPool.replicaId (Change.value ri).keeps xs map
        (eraseReplica ri xs map h).2.1 := by
  induction xs with
  | nil => exact ⟨rfl, Forgets.nil⟩
  | cons rcp xs ih =>
    obtain ⟨hhead, htail⟩ := List.pairwise_cons.mp hone
    rw [eraseReplica]
    split_ifs with hsame
    · have hkeep : (Change.value ri).keeps rcp ≠ true := by simp [Change.keeps, hsame]
      have hrest : ∀ x ∈ xs, (Change.value ri).keeps x = true := by
        intro x hx
        simpa [Change.keeps] using hhead x hx hsame
      rw [List.filter_cons_of_neg hkeep, List.filter_eq_self.mpr hrest]
      refine ⟨rfl, Forgets.gone_cons hkeep ⟨?_, fun _ _ => rfl⟩⟩
      exact fun x hx hgone => absurd (hrest x hx) hgone
    · have hkeep : (Change.value ri).keeps rcp = true := by simp [Change.keeps, hsame]
      rw [List.filter_cons_of_pos hkeep]
      exact ⟨congrArg (rcp :: ·) (ih htail).1, (ih htail).2.kept hkeep⟩

/-! ### Entering pools -/

/-- What the pools keep besides the index: their ids are made from host and
port, no two are equal, and the map knows no other id. -/
structure Tidy (H : PilotHost) (s : PooledClientImpl) : Prop where
  nodup : (s.connPoolVec.map ReplicaConnPool.replicaId).Nodup
  ids : ∀ rcp ∈ s.connPoolVec,
    rcp.replicaId = genReplicId H rcp.backendReplica.1 rcp.backendReplica.2
  within : ∀ id, s.positions id ≠ none → ∃ rcp ∈ s.connPoolVec, rcp.replicaId = id

/-- The pool of the replica that `pushReplica` enters. -/
def entry (s : PooledClientImpl) (ri : ReplicaInfo) (p : ConnPool) : ReplicaConnPool :=
  ⟨(ri.host, ri.port), ri.replicaId, toInt32 s.connPoolVec.length, ri.protocol, ri.status, p⟩

/-- The pools with one more at the end. -/
def enter (s : PooledClientImpl) (ri : ReplicaInfo) (p : ConnPool) : PooledClientImpl :=
  { s with
    replicaMap := Function.update s.replicaMap ri.replicaId (some (toInt32 s.connPoolVec.length))
    connPoolVec := s.connPoolVec ++ [s.entry ri p] }

theorem pushReplica_cases (net : ℕ → Bool) (ri : ReplicaInfo) (s : PooledClientImpl)
    (h : Clients) :
    (s.pushReplica net ri h).1 = s ∨ ∃ p, (s.pushReplica net ri h).1 = s.enter ri p := by
  unfold pushReplica
  dsimp only
  split_ifs
  · exact Or.inr ⟨_, rfl⟩
  · exact Or.inl rfl

theorem enter_positions (ri : ReplicaInfo) (p : ConnPool) (hlen : s.connPoolVec.length < 2 ^ 31) :
    (s.enter ri p).positions =
      Function.update s.positions (s.entry ri p).replicaId (some s.connPoolVec.length) := by
  funext id
  show (Function.update s.replicaMap ri.replicaId _ id).map toUInt64 = _
  rw [toInt32_natCast hlen]
  rcases eq_or_ne id ri.replicaId with rfl | hne
  · rw [Function.update_self]
    show some (toUInt64 s.connPoolVec.length) = Function.update s.positions ri.replicaId _ _
    rw [Function.update_self, toUInt64_natCast (hlen.trans (by norm_num))]
  · rw [Function.update_of_ne hne]
    exact (Function.update_of_ne (f := s.positions) hne _).symm

/-- A pool for a replica that has none leaves the index as right as it was. -/
theorem Tidy.enter {ri : ReplicaInfo} (hs : s.Tidy H) (hid : ri.Identified H) (p : ConnPool)
    (hlen : s.connPoolVec.length < 2 ^ 31)
    (hnew : ∀ rcp ∈ s.connPoolVec, rcp.replicaId ≠ ri.replicaId) :
    (s.enter ri p).Tidy H ∧ ((s.enter ri p).Pointed ↔ s.Pointed) := by
  have hnone : s.positions (s.entry ri p).replicaId = none := by
    by_contra hsome
    obtain ⟨rcp, hrcp, hkey⟩ := hs.within _ hsome
    exact hnew rcp hrcp hkey
  have hpos := enter_positions ri p hlen
  refine ⟨⟨?_, ?_, ?_⟩, ?_⟩
  · show ((s.connPoolVec ++ [s.entry ri p]).map ReplicaConnPool.replicaId).Nodup
    rw [List.map_append, List.map_singleton]
    refine List.Nodup.append hs.nodup (List.nodup_singleton _) ?_
    intro id hid hid'
    obtain ⟨rcp, hrcp, rfl⟩ := List.mem_map.mp hid
    exact hnew rcp hrcp (List.mem_singleton.mp hid')
  · intro rcp hrcp
    rcases List.mem_append.mp hrcp with hrcp | hrcp
    · exact hs.ids rcp hrcp
    · rw [List.mem_singleton.mp hrcp]
      exact hid
  · intro id hsome
    rw [hpos] at hsome
    rcases eq_or_ne id (s.entry ri p).replicaId with rfl | hne
    · exact ⟨_, List.mem_append_right _ (List.mem_singleton.mpr rfl), rfl⟩
    · rw [Function.update_of_ne hne] at hsome
      obtain ⟨rcp, hrcp, hkey⟩ := hs.within id hsome
      exact ⟨rcp, List.mem_append_left _ hrcp, hkey⟩
  · unfold Pointed
    rw [hpos]
    exact indexes_concat_iff hnew hnone

theorem Tidy.pushReplica {ri : ReplicaInfo} (hs : s.Tidy H) (net : ℕ → Bool) (h : Clients)
    (hid : ri.Identified H) (hlen : s.connPoolVec.length < 2 ^ 31)
    (hnew : ∀ rcp ∈ s.connPoolVec, rcp.replicaId ≠ ri.replicaId) :
    (s.pushReplica net ri h).1.Tidy H ∧ ((s.pushReplica net ri h).1.Pointed ↔ s.Pointed) := by
  rcases pushReplica_cases net ri s h with heq | ⟨p, heq⟩
  · rw [heq]
    exact ⟨hs, Iff.rfl⟩
  · rw [heq]
    exact hs.enter hid p hlen hnew

/-- The second loop of `REFRESH_ALL`.  Every pool is in the listing, so a
replica that is not found among them has a new id. -/
theorem Tidy.addUnfound {riv l : List ReplicaInfo} (hid : ∀ ri ∈ riv, ri.Identified H)
    (hdistinct : ∀ ri ∈ riv, ∀ ri' ∈ riv, ri.replicaId = ri'.replicaId → ri = ri')
    (hl : ∀ ri ∈ l, ri ∈ riv) (hs : s.Tidy H) (net : ℕ → Bool) (h : Clients)
    (hlisted : ∀ rcp ∈ s.connPoolVec, ∃ ri ∈ riv, rcp.listed ri = true)
    (hlen : s.connPoolVec.length + l.length ≤ 2 ^ 31) :
    (addUnfound net l s h).1.Tidy H ∧ ((addUnfound net l s h).1.Pointed ↔ s.Pointed) := by
  induction l generalizing s h with
  | nil => exact ⟨hs, Iff.rfl⟩
  | cons ri l ih =>
    have hri : ri ∈ riv := hl ri List.mem_cons_self
    have hl' : ∀ ri ∈ l, ri ∈ riv := fun r hr => hl r (List.mem_cons_of_mem _ hr)
    rw [List.length_cons] at hlen
    rw [PooledClientImpl.addUnfound]
    split_ifs with hfound
    · exact ih hl' hs h hlisted (by omega)
    · have hnew : ∀ rcp ∈ s.connPoolVec, rcp.replicaId ≠ ri.replicaId := by
        intro rcp hrcp hkey
        obtain ⟨ri', hri', hmatch⟩ := hlisted rcp hrcp
        obtain ⟨hback, -, -⟩ := ReplicaConnPool.listed_iff.mp hmatch
        have hrid : rcp.replicaId = ri'.replicaId := by
          rw [hs.ids rcp hrcp, hid ri' hri', hback]
        obtain rfl := hdistinct ri' hri' ri hri (hrid.symm.trans hkey)
        exact hfound (List.any_eq_true.mpr ⟨rcp, hrcp, hmatch⟩)
      obtain ⟨htidy, hpointed⟩ := hs.pushReplica net h (hid ri hri) (by omega) hnew
      have hmid : (∀ rcp ∈ (s.pushReplica net ri h).1.connPoolVec,
          ∃ ri ∈ riv, rcp.listed ri = true) ∧
          (s.pushReplica net ri h).1.connPoolVec.length ≤ s.connPoolVec.length + 1 := by
        rcases pushReplica_cases net ri s h with heq | ⟨p, heq⟩
        · rw [heq]
          exact ⟨hlisted, Nat.le_succ _⟩
        · rw [heq]
          refine ⟨?_, (List.length_append ..).le⟩
          intro rcp hrcp
          rcases List.mem_append.mp hrcp with hrcp | hrcp
          · exact hlisted rcp hrcp
          · rw [List.mem_singleton.mp hrcp]
            exact ⟨ri, hri, ReplicaConnPool.listed_iff.mpr ⟨rfl, rfl, rfl⟩⟩
      obtain ⟨htidy', hpointed'⟩ := ih hl' htidy (s.pushReplica net ri h).2 hmid.1
        (by have := hmid.2; omega)
      exact ⟨htidy', hpointed'.trans hpointed⟩

/-! ### A change of the pools -/

/-- Pools are erased: the index is right afterwards if and only if no pool that
stays stood behind one that goes. -/
theorem Tidy.erased (hs : s.Tidy H) (hpointed : s.Pointed) (keep : ReplicaConnPool → Bool)
    (s' : PooledClientImpl) (hvec : s'.connPoolVec = s.connPoolVec.filter keep)
    (hmap : Forgets ReplicaConnPool.replicaId keep s.connPoolVec s.replicaMap s'.replicaMap) :
    s'.Tidy H ∧ (s'.Pointed ↔ KeptFirst keep s.connPoolVec) := by
  have hforgets := hmap.map toUInt64
  refine ⟨⟨?_, ?_, ?_⟩, ?_⟩
  · rw [hvec]
    exact hs.nodup.sublist (List.filter_sublist.map _)
  · intro rcp hrcp
    rw [hvec] at hrcp
    exact hs.ids rcp (List.mem_filter.mp hrcp).1
  · intro id hsome
    obtain ⟨hsame, hstay⟩ := hforgets.of_ne_none hsome
    obtain ⟨rcp, hrcp, hkey⟩ := hs.within id (fun hnone => hsome (hsame.trans hnone))
    exact ⟨rcp, by rw [hvec]; exact List.mem_filter.mpr ⟨hrcp, hstay rcp hrcp hkey⟩, hkey⟩
  · unfold Pointed
    rw [hvec]
    exact indexes_filter_iff hpointed hs.nodup hforgets

end PooledClientImpl

/-- Different replicas have different ids, and the positions fit into an
`int32_t`. -/
def Change.Distinct (s : PooledClientImpl) : Change → Prop
  | .refresh riv => (∀ ri ∈ riv, ∀ ri' ∈ riv, ri.replicaId = ri'.replicaId → ri = ri') ∧
      s.connPoolVec.length + riv.length ≤ 2 ^ 31
  | .value ri => (∀ rcp ∈ s.connPoolVec, rcp.replicaId = ri.replicaId → rcp.same ri = true) ∧
      s.connPoolVec.length < 2 ^ 31

instance (s : PooledClientImpl) : ∀ c : Change, Decidable (c.Distinct s)
  | .refresh _ => inferInstanceAs (Decidable (_ ∧ _))
  | .value _ => inferInstanceAs (Decidable (_ ∧ _))

namespace PooledClientImpl

variable {H : PilotHost} {s : PooledClientImpl}

theorem Tidy.refreshAll {riv : List ReplicaInfo} (hs : s.Tidy H) (net : ℕ → Bool) (h : Clients)
    (hpointed : s.Pointed) (hid : ∀ ri ∈ riv, ri.Identified H)
    (hdistinct : (Change.refresh riv).Distinct s) :
    (s.refreshAll net riv h).1.Tidy H ∧
      ((s.refreshAll net riv h).1.Pointed ↔
        KeptFirst (Change.refresh riv).keeps s.connPoolVec) := by
  unfold PooledClientImpl.refreshAll
  split_ifs with hnil
  · -- an empty listing clears the vector and the map
    subst hnil
    refine hs.erased hpointed (Change.refresh []).keeps _ ?_ ⟨fun _ _ _ => rfl, ?_⟩
    · exact (List.filter_eq_nil_iff.mpr fun _ _ => Bool.false_ne_true).symm
    · intro id hid
      by_contra hsome
      obtain ⟨rcp, hrcp, hkey⟩ := hs.within id fun hnone =>
        hsome (Option.map_eq_none_iff.mp hnone).symm
      exact hid rcp hrcp Bool.false_ne_true hkey
  · obtain ⟨hvec, hmap⟩ := eraseUnlisted_spec riv s.connPoolVec s.replicaMap h
    obtain ⟨hids, hlen⟩ := hdistinct
    dsimp only
    set r := eraseUnlisted riv s.connPoolVec s.replicaMap h with hr
    obtain ⟨htidy, hiff⟩ := hs.erased hpointed _
      { s with connPoolVec := r.1, replicaMap := r.2.1 } hvec hmap
    have hlisted : ∀ rcp ∈ r.1, ∃ ri ∈ riv, rcp.listed ri = true := by
      intro rcp hrcp
      rw [hvec] at hrcp
      exact List.any_eq_true.mp (List.mem_filter.mp hrcp).2
    have hshort : r.1.length ≤ s.connPoolVec.length := by
      rw [hvec]
      exact List.length_filter_le _ _
    obtain ⟨htidy', hiff'⟩ := Tidy.addUnfound hid hids (fun _ hri => hri) htidy net
      r.2.2 hlisted (by show r.1.length + _ ≤ _; omega)
    exact ⟨htidy', hiff'.trans hiff⟩

theorem Tidy.nodeValueChanged {ri : ReplicaInfo} (hs : s.Tidy H) (net : ℕ → Bool)
    (h : Clients) (hpointed : s.Pointed) (hid : ri.Identified H)
    (hdistinct : (Change.value ri).Distinct s) :
    (s.nodeValueChanged net ri h).1.Tidy H ∧
      ((s.nodeValueChanged net ri h).1.Pointed ↔
        KeptFirst (Change.value ri).keeps s.connPoolVec) := by
  obtain ⟨hids, hlen⟩ := hdistinct
  have hsameId : ∀ rcp ∈ s.connPoolVec, rcp.same ri = true → rcp.replicaId = ri.replicaId := by
    intro rcp hrcp hsame
    rw [hs.ids rcp hrcp, hid, (ReplicaConnPool.same_iff.mp hsame).1]
  have hone : s.connPoolVec.Pairwise fun a b => a.same ri = true → ¬b.same ri = true := by
    refine (List.pairwise_map.mp hs.nodup).imp_of_mem ?_
    intro a b ha hb hne hsame hsame'
    exact hne ((hsameId a ha hsame).trans (hsameId b hb hsame').symm)
  obtain ⟨hvec, hmap⟩ := eraseReplica_spec ri hone s.replicaMap h
  unfold PooledClientImpl.nodeValueChanged
  dsimp only
  set r := eraseReplica ri s.connPoolVec s.replicaMap h with hr
  obtain ⟨htidy, hiff⟩ := hs.erased hpointed _
    { s with connPoolVec := r.1, replicaMap := r.2.1 } hvec hmap
  split_ifs
  · have hnew : ∀ rcp ∈ r.1, rcp.replicaId ≠ ri.replicaId := by
      intro rcp hrcp hkey
      rw [hvec] at hrcp
      obtain ⟨hmem, hkeep⟩ := List.mem_filter.mp hrcp
      rw [Change.keeps, hids rcp hmem hkey] at hkeep
      cases hkeep
    have hshort : r.1.length ≤ s.connPoolVec.length := by
      rw [hvec]
      exact List.length_filter_le _ _
    obtain ⟨htidy', hiff'⟩ := htidy.pushReplica net r.2.2 hid
      (hshort.trans_lt hlen) hnew
    exact ⟨htidy', hiff'.trans hiff⟩
  · exact ⟨htidy, hiff⟩

theorem Tidy.change {c : Change} (hs : s.Tidy H) (net : ℕ → Bool) (h : Clients)
    (hpointed : s.Pointed) (hid : ∀ ri ∈ c.replicas, ri.Identified H) (hdistinct : c.Distinct s) :
    (s.change net h c).1.Tidy H ∧
      ((s.change net h c).1.Pointed ↔ KeptFirst c.keeps s.connPoolVec) := by
  cases c with
  | refresh riv => exact hs.refreshAll net h hpointed hid hdistinct
  | value ri => exact hs.nodeValueChanged net h hpointed (hid ri List.mem_cons_self) hdistinct

end PooledClientImpl

/-! ### Runs of update tasks -/

/-- A task, with what ZooKeeper answers to it and the connections that succeed. -/
structure Update where
  task : UpdateTask
  zk : Zk
  net : ℕ → Bool

namespace Update

open PooledClientImpl

/-- A listing of the nodes of these servers, when every connection succeeds. -/
def refresh (servers : List JsonValue) : Update :=
  ⟨⟨.refreshAll, []⟩, listing servers, fun _ => true⟩

/-- The task is processed. -/
def step (H : PilotHost) (s : PooledClientImpl × Clients) (u : Update) :
    Option (PooledClientImpl × Clients) :=
  some (s.1.processUpdateTask H u.zk u.net s.2 u.task).1

/-- What holds of the change, if the task asks for one. -/
def Asks (H : PilotHost) (Q : PooledClientImpl → Change → Prop)
    (s : PooledClientImpl × Clients) (u : Update) : Prop :=
  ∀ c ∈ (s.1.readTask H u.zk u.task).1, Q s.1 c

instance (H : PilotHost) (Q : PooledClientImpl → Change → Prop) [∀ s c, Decidable (Q s c)]
    (s : PooledClientImpl × Clients) (u : Update) : Decidable (Asks H Q s u) :=
  inferInstanceAs (Decidable (∀ c ∈ (s.1.readTask H u.zk u.task).1, Q s.1 c))

/-- Different replicas have different ids. -/
def Distinct (H : PilotHost) : PooledClientImpl × Clients → Update → Prop :=
  Asks H fun s c => c.Distinct s

/-- No pool that the task keeps stands behind a pool that it erases. -/
def ErasesLast (H : PilotHost) : PooledClientImpl × Clients → Update → Prop :=
  Asks H fun s c => KeptFirst c.keeps s.connPoolVec

instance (H : PilotHost) (s : PooledClientImpl × Clients) (u : Update) :
    Decidable (Distinct H s u) :=
  inferInstanceAs (Decidable (Asks H _ s u))

instance (H : PilotHost) (s : PooledClientImpl × Clients) (u : Update) :
    Decidable (ErasesLast H s u) :=
  inferInstanceAs (Decidable (Asks H _ s u))

variable {H : PilotHost}

theorem step_spec {s s' : PooledClientImpl × Clients} {u : Update} (hs : s.1.Tidy H)
    (hpointed : s.1.Pointed) (hdistinct : Distinct H s u) (hstep : step H s u = some s') :
    s'.1.Tidy H ∧ (s'.1.Pointed ↔ ErasesLast H s u) := by
  obtain rfl := Option.some.inj hstep
  unfold ErasesLast Asks processUpdateTask
  rcases hread : s.1.readTask H u.zk u.task with ⟨- | c, puts⟩
  · exact ⟨hs, by simpa using hpointed⟩
  · have hc : (s.1.readTask H u.zk u.task).1 = some c := by rw [hread]
    obtain ⟨htidy, hiff⟩ := hs.change u.net s.2 hpointed
      (readTask_identified hc) (hdistinct c hc)
    exact ⟨htidy, by simpa using hiff⟩

/-- **Where `replica_map_` leads**, in every run of update tasks from an empty
vector: as long as different replicas have different ids, it leads to the right
pools throughout if and only if no task erases a pool in front of one that it
keeps. -/
theorem always_pointed_iff (path : List UInt8) (num : ℤ) (h : Clients) (us : List Update)
    (hdistinct : Guarded (step H) (Distinct H) (PooledClientImpl.new path num, h) us) :
    Always (step H) (fun s => s.1.Pointed ∧ s.1.Served) (PooledClientImpl.new path num, h) us ↔
      Guarded (step H) (ErasesLast H) (PooledClientImpl.new path num, h) us := by
  refine always_iff_guarded (I := fun s => s.1.Tidy H ∧ s.1.Pointed) ?_ ?_ ?_ ?_ hdistinct
  · rintro s u s' ⟨hs, hpointed⟩ hd hlast hstep
    obtain ⟨htidy, hiff⟩ := step_spec hs hpointed hd hstep
    exact ⟨htidy, hiff.mpr hlast⟩
  · exact fun s hs => ⟨hs.2, hs.2.served⟩
  · rintro s u s' ⟨hs, hpointed⟩ hd hstep hs'
    exact (step_spec hs hpointed hd hstep).2.mp hs'.1
  · exact ⟨⟨List.nodup_nil, by simp [PooledClientImpl.new],
      by simp [PooledClientImpl.new, positions]⟩, indexes_nil⟩

/-- Two replicas come and the second leaves again. -/
theorem always_pointed_last_leaves :
    Always (step smallHost) (fun s => s.1.Pointed ∧ s.1.Served)
      (PooledClientImpl.new rpcPath 1, ⟨0, []⟩)
      [refresh [server 1, server 2], refresh [server 1]] :=
  (always_pointed_iff rpcPath 1 ⟨0, []⟩ _ (by decide +kernel)).mpr (by decide +kernel)

/-- **The map leads out of the vector**: two replicas come and the first leaves.
The second has moved to position 0, the map still says 1, and
`acquire_thrift_client` reads behind the end.  When instead the two share host
and port, their id goes with the first, and the second is no longer found. -/
theorem replicaMap_stale :
    (∃ s, runEvents (step smallHost) (PooledClientImpl.new rpcPath 1, ⟨0, []⟩)
        [refresh [server 1, server 2], refresh [server 2]] = some s ∧
      s.1.connPoolVec.map ReplicaConnPool.replicaId = [genReplicId smallHost (address 2) 80] ∧
      s.1.replicaMap (genReplicId smallHost (address 2) 80) = some 1 ∧
      (s.1.acquireThriftClientId (fun _ => true) plainOutside
        (genReplicId smallHost (address 2) 80) s.2).isNone) ∧
    ∃ s, runEvents (step smallHost) (PooledClientImpl.new rpcPath 1, ⟨0, []⟩)
        [refresh [server 1, compactServer], refresh [compactServer]] = some s ∧
      s.1.connPoolVec.map ReplicaConnPool.replicaId = [genReplicId smallHost (address 1) 80] ∧
      s.1.replicaMap (genReplicId smallHost (address 1) 80) = none :=
  ⟨⟨_, rfl, by decide +kernel⟩, ⟨_, rfl, by decide +kernel⟩⟩

end Update

end Pilot

end Xkim
