/-
MsgHandler/Pilot/Convergence.lean

`REFRESH_ALL` brings `conn_pool_vec_` to the listing
(`process_update_task`, `get_all_replicas`).

The task erases from the vector what the listing does not have, and then goes
through the listing and enters what the vector does not have, if its new pool
gets a connection.  Both loops compare host, port, protocol and status, so
the tuples of the vector are the keys of `MsgHandler/Pilot/Refresh.lean`; a
replica listed twice is found the second time, unless its first pool got no
connection, and then it is tried again.

`made` lists the pools that the task creates.  What the vector holds
afterwards is said in terms of it (`Converged`): the old pools that are
listed, in their old order, followed by the new ones that got a connection.
If all of them did, a second pass over the same listing finds everything in
its place.
-/
import MsgHandler.Pilot.Refresh

namespace Xkim

namespace Pilot

namespace PooledClientImpl

variable {s : PooledClientImpl} {h : Clients} {net : ℕ → Bool}

/-! ### The second loop -/

/-- The pools that the second loop creates, entered or not. -/
def created (net : ℕ → Bool) :
    List ReplicaInfo → PooledClientImpl → Clients → List (ReplicaInfo × ConnPool)
  | [], _, _ => []
  | ri :: riv, s, h =>
    if s.connPoolVec.any (·.listed ri) then created net riv s h
    else
      (ri, (ConnPool.new ri.host ri.port s.numClientsPerReplica ri.protocol net h).1) ::
        created net riv (s.pushReplica net ri h).1 (s.pushReplica net ri h).2

/-- A replica is found by its key. -/
theorem any_listed_iff {V : List ReplicaConnPool} {ri : ReplicaInfo} :
    V.any (·.listed ri) = true ↔ ri.key ∈ V.map ReplicaConnPool.key := by
  rw [List.any_eq_true, List.mem_map]
  exact exists_congr fun rcp => and_congr_right fun _ => ReplicaConnPool.listed_iff_key

/-- What `pushReplica` does to the vector. -/
theorem pushReplica_vec (ri : ReplicaInfo) :
    (s.pushReplica net ri h).1.connPoolVec = s.connPoolVec ++
      if 0 < (ConnPool.new ri.host ri.port s.numClientsPerReplica ri.protocol net h).1.poolSize then
        [s.entry ri (ConnPool.new ri.host ri.port s.numClientsPerReplica ri.protocol net h).1]
      else [] := by
  unfold pushReplica
  dsimp only
  split_ifs
  · rfl
  · exact (List.append_nil _).symm

theorem pushReplica_path (ri : ReplicaInfo) :
    (s.pushReplica net ri h).1.path = s.path := by
  rcases pushReplica_cases net ri s h with heq | ⟨p, heq⟩ <;> rw [heq]
  rfl

/-- **What the second loop enters**: of the pools it creates, those with a
connection, behind what was there. -/
theorem addUnfound_vec (net : ℕ → Bool) (riv : List ReplicaInfo) :
    ∃ new, (addUnfound net riv s h).1.connPoolVec = s.connPoolVec ++ new ∧
      new.map (fun rcp => (rcp.key, rcp.connPool)) =
        ((created net riv s h).filter (0 < ·.2.poolSize)).map fun x => (x.1.key, x.2) := by
  induction riv generalizing s h with
  | nil => exact ⟨[], (List.append_nil _).symm, rfl⟩
  | cons ri riv ih =>
    rw [addUnfound, created]
    split_ifs with hfound
    · exact ih
    · obtain ⟨new, hvec, hnew⟩ := ih (s := (s.pushReplica net ri h).1)
        (h := (s.pushReplica net ri h).2)
      rw [pushReplica_vec, List.append_assoc] at hvec
      refine ⟨_, hvec, ?_⟩
      rw [List.map_append, hnew]
      split_ifs with hsize
      · rw [List.filter_cons_of_pos (by simpa using hsize)]
        rfl
      · rw [List.filter_cons_of_neg (by simpa using hsize)]
        rfl

/-- The loop creates pools for replicas of the listing that are not in the
vector. -/
theorem mem_created {riv : List ReplicaInfo} {x : ReplicaInfo × ConnPool}
    (hx : x ∈ created net riv s h) :
    x.1 ∈ riv ∧ x.1.key ∉ s.connPoolVec.map ReplicaConnPool.key := by
  induction riv generalizing s h with
  | nil => cases hx
  | cons ri riv ih =>
    rw [created] at hx
    split_ifs at hx with hfound
    · obtain ⟨hmem, hnot⟩ := ih hx
      exact ⟨List.mem_cons_of_mem _ hmem, hnot⟩
    · rcases List.mem_cons.mp hx with rfl | hx
      · exact ⟨List.mem_cons_self, fun hkey => hfound (any_listed_iff.mpr hkey)⟩
      · obtain ⟨hmem, hnot⟩ := ih hx
        refine ⟨List.mem_cons_of_mem _ hmem, fun hkey => hnot ?_⟩
        rw [pushReplica_vec, List.map_append]
        exact List.mem_append_left _ hkey

/-- It creates one for each of them that is not in the vector. -/
theorem created_of_unfound (net : ℕ → Bool) {riv : List ReplicaInfo} {ri : ReplicaInfo}
    (hri : ri ∈ riv) :
    ri.key ∈ s.connPoolVec.map ReplicaConnPool.key ∨
      ∃ x ∈ created net riv s h, x.1.key = ri.key := by
  induction riv generalizing s h with
  | nil => cases hri
  | cons ri' riv ih =>
    rw [created]
    split_ifs with hfound
    · rcases List.mem_cons.mp hri with rfl | hri
      · exact Or.inl (any_listed_iff.mp hfound)
      · exact ih hri
    · rcases List.mem_cons.mp hri with rfl | hri
      · exact Or.inr ⟨_, List.mem_cons_self, rfl⟩
      · rcases ih hri (s := (s.pushReplica net ri' h).1) (h := (s.pushReplica net ri' h).2) with
          hkey | ⟨x, hx, heq⟩
        · rw [pushReplica_vec, List.map_append] at hkey
          rcases List.mem_append.mp hkey with hkey | hkey
          · exact Or.inl hkey
          · -- the replica has just been entered, from another line of the listing
            refine Or.inr ⟨_, List.mem_cons_self, ?_⟩
            split_ifs at hkey
            · exact (List.mem_singleton.mp hkey).symm
            · cases hkey
        · exact Or.inr ⟨x, List.mem_cons_of_mem _ hx, heq⟩

theorem addUnfound_nodup (riv : List ReplicaInfo)
    (hs : (s.connPoolVec.map ReplicaConnPool.key).Nodup) :
    ((addUnfound net riv s h).1.connPoolVec.map ReplicaConnPool.key).Nodup := by
  induction riv generalizing s h with
  | nil => exact hs
  | cons ri riv ih =>
    rw [addUnfound]
    split_ifs with hfound
    · exact ih hs
    · refine ih ?_
      rw [pushReplica_vec]
      split_ifs
      · rw [List.map_append, List.map_singleton]
        refine List.nodup_append.mpr ⟨hs, List.nodup_singleton _, ?_⟩
        rintro k hk k' hk' rfl
        rw [List.mem_singleton] at hk'
        subst hk'
        exact hfound (any_listed_iff.mpr hk)
      · rw [List.append_nil]
        exact hs

theorem addUnfound_path (riv : List ReplicaInfo) : (addUnfound net riv s h).1.path = s.path := by
  induction riv generalizing s h with
  | nil => rfl
  | cons ri riv ih =>
    rw [addUnfound]
    split_ifs
    · exact ih
    · exact ih.trans (pushReplica_path ri)

/-- Where everything is found, the loop does nothing. -/
theorem addUnfound_of_found {riv : List ReplicaInfo}
    (hall : ∀ ri ∈ riv, ri.key ∈ s.connPoolVec.map ReplicaConnPool.key) :
    addUnfound net riv s h = (s, h) := by
  induction riv with
  | nil => rfl
  | cons ri riv ih =>
    rw [addUnfound, if_pos (any_listed_iff.mpr (hall ri List.mem_cons_self))]
    exact ih fun ri' hri' => hall ri' (List.mem_cons_of_mem _ hri')

/-! ### The first loop -/

/-- Where everything is listed, the loop does nothing. -/
theorem eraseUnlisted_of_listed {riv : List ReplicaInfo} {V : List ReplicaConnPool}
    (hall : ∀ rcp ∈ V, riv.any rcp.listed = true) (map : ℕ → Option ℤ) (h : Clients) :
    eraseUnlisted riv V map h = (V, map, h) := by
  induction V with
  | nil => rfl
  | cons rcp V ih =>
    rw [eraseUnlisted, if_pos (hall rcp List.mem_cons_self)]
    rw [ih fun rcp' hrcp' => hall rcp' (List.mem_cons_of_mem _ hrcp')]

/-- The pool is listed, by its key. -/
theorem listed_any_iff {riv : List ReplicaInfo} {rcp : ReplicaConnPool} :
    riv.any rcp.listed = true ↔ rcp.key ∈ riv.map ReplicaInfo.key := by
  rw [List.any_eq_true, List.mem_map]
  exact exists_congr fun ri =>
    and_congr_right fun _ => ReplicaConnPool.listed_iff_key.trans eq_comm

/-- The vector after the first loop. -/
def kept (riv : List ReplicaInfo) (s : PooledClientImpl) (h : Clients) : PooledClientImpl :=
  { s with
    connPoolVec := (eraseUnlisted riv s.connPoolVec s.replicaMap h).1
    replicaMap := (eraseUnlisted riv s.connPoolVec s.replicaMap h).2.1 }

theorem kept_vec (riv : List ReplicaInfo) :
    (kept riv s h).connPoolVec = s.connPoolVec.filter fun rcp => riv.any rcp.listed :=
  (eraseUnlisted_spec riv s.connPoolVec s.replicaMap h).1

/-! ### The task -/

/-- The pools that `REFRESH_ALL` creates for the replicas `riv`. -/
def made (net : ℕ → Bool) (riv : List ReplicaInfo) (s : PooledClientImpl) (h : Clients) :
    List (ReplicaInfo × ConnPool) :=
  created net riv (kept riv s h) (eraseUnlisted riv s.connPoolVec s.replicaMap h).2.2

/-- The vector `V'` is what the listing makes of the vector `V`, when the
pools `made` are created on the way. -/
structure Converged (live : List ReplicaInfo) (made : List (ReplicaInfo × ConnPool))
    (V V' : List ReplicaConnPool) : Prop where
  nodup : (V'.map ReplicaConnPool.key).Nodup
  /-- the listed pools of before, in their order, and then new ones -/
  order : ∃ new, V' = V.filter (fun rcp => live.any rcp.listed) ++ new ∧
    new.map (fun rcp => (rcp.key, rcp.connPool)) =
      (made.filter (0 < ·.2.poolSize)).map fun x => (x.1.key, x.2)
  /-- the listed tuples that were present, or whose new pool has a connection -/
  exact_keys : ∀ k, k ∈ V'.map ReplicaConnPool.key ↔ k ∈ live.map ReplicaInfo.key ∧
    (k ∈ V.map ReplicaConnPool.key ∨ ∃ x ∈ made, x.1.key = k ∧ 0 < x.2.poolSize)
  /-- a pool is created for every listed tuple that was not present, and for no other -/
  tried : ∀ k, (∃ x ∈ made, x.1.key = k) ↔
    k ∈ live.map ReplicaInfo.key ∧ k ∉ V.map ReplicaConnPool.key

/-- The pools that are created. -/
theorem made_iff (riv : List ReplicaInfo) (k : ReplicaKey) :
    (∃ x ∈ made net riv s h, x.1.key = k) ↔
      k ∈ riv.map ReplicaInfo.key ∧ k ∉ s.connPoolVec.map ReplicaConnPool.key := by
  have hkept : ∀ {k}, k ∈ riv.map ReplicaInfo.key →
      (k ∈ (kept riv s h).connPoolVec.map ReplicaConnPool.key ↔
        k ∈ s.connPoolVec.map ReplicaConnPool.key) := by
    intro k hk
    rw [kept_vec]
    constructor
    · intro hmem
      obtain ⟨rcp, hrcp, rfl⟩ := List.mem_map.mp hmem
      exact List.mem_map_of_mem (List.mem_filter.mp hrcp).1
    · intro hmem
      obtain ⟨rcp, hrcp, rfl⟩ := List.mem_map.mp hmem
      exact List.mem_map_of_mem (List.mem_filter.mpr ⟨hrcp, listed_any_iff.mpr hk⟩)
  constructor
  · rintro ⟨x, hx, rfl⟩
    obtain ⟨hriv, hnot⟩ := mem_created hx
    have hk : x.1.key ∈ riv.map ReplicaInfo.key := List.mem_map_of_mem hriv
    exact ⟨hk, fun hmem => hnot ((hkept hk).mpr hmem)⟩
  · rintro ⟨hk, hnot⟩
    obtain ⟨ri, hri, rfl⟩ := List.mem_map.mp hk
    rcases created_of_unfound net hri (s := kept riv s h)
      (h := (eraseUnlisted riv s.connPoolVec s.replicaMap h).2.2) with hmem | hx
    · exact absurd ((hkept hk).mp hmem) hnot
    · exact hx

/-- `REFRESH_ALL` is the second loop after the first, also on an empty
listing. -/
theorem refreshAll_vec (riv : List ReplicaInfo) :
    (s.refreshAll net riv h).1.connPoolVec =
      (addUnfound net riv (kept riv s h)
        (eraseUnlisted riv s.connPoolVec s.replicaMap h).2.2).1.connPoolVec := by
  unfold refreshAll
  split_ifs with hnil
  · subst hnil
    show [] = (kept [] s h).connPoolVec
    rw [kept_vec]
    exact (List.filter_eq_nil_iff.mpr fun rcp _ => Bool.false_ne_true).symm
  · rfl

theorem refreshAll_converged (net : ℕ → Bool) (riv : List ReplicaInfo)
    (hs : (s.connPoolVec.map ReplicaConnPool.key).Nodup) :
    Converged riv (made net riv s h) s.connPoolVec (s.refreshAll net riv h).1.connPoolVec := by
  obtain ⟨new, hvec, hnew⟩ := addUnfound_vec net riv (s := kept riv s h)
    (h := (eraseUnlisted riv s.connPoolVec s.replicaMap h).2.2)
  rw [refreshAll_vec]
  have hnewKey : ∀ k, k ∈ new.map ReplicaConnPool.key ↔
      ∃ x ∈ made net riv s h, x.1.key = k ∧ 0 < x.2.poolSize := by
    intro k
    have hkeys : new.map ReplicaConnPool.key =
        ((made net riv s h).filter (0 < ·.2.poolSize)).map fun x => x.1.key := by
      have hfst := congrArg (List.map Prod.fst) hnew
      rw [List.map_map, List.map_map] at hfst
      exact hfst
    rw [hkeys, List.mem_map]
    simp only [List.mem_filter, decide_eq_true_eq]
    constructor
    · rintro ⟨x, ⟨hx, hsize⟩, rfl⟩
      exact ⟨x, hx, rfl, hsize⟩
    · rintro ⟨x, hx, rfl, hsize⟩
      exact ⟨x, ⟨hx, hsize⟩, rfl⟩
  refine ⟨?_, ⟨new, ?_, hnew⟩, ?_, made_iff riv⟩
  · refine addUnfound_nodup riv ?_
    rw [kept_vec]
    exact hs.sublist (List.filter_sublist.map _)
  · rw [hvec, kept_vec]
  · intro k
    rw [hvec, kept_vec, List.map_append, List.mem_append, hnewKey]
    constructor
    · rintro (hmem | ⟨x, hx, rfl, hsize⟩)
      · obtain ⟨rcp, hrcp, rfl⟩ := List.mem_map.mp hmem
        obtain ⟨hV, hlisted⟩ := List.mem_filter.mp hrcp
        exact ⟨listed_any_iff.mp hlisted, Or.inl (List.mem_map_of_mem hV)⟩
      · exact ⟨((made_iff riv _).mp ⟨x, hx, rfl⟩).1, Or.inr ⟨x, hx, rfl, hsize⟩⟩
    · rintro ⟨hk, hmem | hx⟩
      · obtain ⟨rcp, hrcp, rfl⟩ := List.mem_map.mp hmem
        exact Or.inl (List.mem_map_of_mem
          (List.mem_filter.mpr ⟨hrcp, listed_any_iff.mpr hk⟩))
      · exact Or.inr hx

theorem refreshAll_path (riv : List ReplicaInfo) : (s.refreshAll net riv h).1.path = s.path := by
  unfold refreshAll
  split_ifs
  · rfl
  · exact addUnfound_path riv

/-- A vector that has exactly the listing stays as it is. -/
theorem refreshAll_of_settled {riv : List ReplicaInfo}
    (hall : ∀ ri ∈ riv, ri.key ∈ s.connPoolVec.map ReplicaConnPool.key)
    (hlisted : ∀ rcp ∈ s.connPoolVec, rcp.key ∈ riv.map ReplicaInfo.key) (hne : riv ≠ []) :
    s.refreshAll net riv h = (s, h) := by
  have herase := eraseUnlisted_of_listed
    (fun rcp hrcp => listed_any_iff.mpr (hlisted rcp hrcp)) s.replicaMap h
  rw [refreshAll, if_neg hne]
  simp only [herase]
  exact addUnfound_of_found hall

/-- **A second pass changes nothing** when every pool of the first one got a
connection. -/
theorem refreshAll_again (riv : List ReplicaInfo) (net' : ℕ → Bool)
    (hs : (s.connPoolVec.map ReplicaConnPool.key).Nodup)
    (hall : ∀ x ∈ made net riv s h, 0 < x.2.poolSize) :
    (s.refreshAll net riv h).1.refreshAll net' riv (s.refreshAll net riv h).2 =
      s.refreshAll net riv h := by
  by_cases hnil : riv = []
  · subst hnil
    rfl
  · have hconv := refreshAll_converged net (h := h) riv hs
    refine refreshAll_of_settled ?_ ?_ hnil
    · intro ri hri
      have hk : ri.key ∈ riv.map ReplicaInfo.key := List.mem_map_of_mem hri
      refine (hconv.exact_keys _).mpr ⟨hk, ?_⟩
      by_cases hmem : ri.key ∈ s.connPoolVec.map ReplicaConnPool.key
      · exact Or.inl hmem
      · obtain ⟨x, hx, heq⟩ := (hconv.tried _).mpr ⟨hk, hmem⟩
        exact Or.inr ⟨x, hx, heq, hall x hx⟩
    · intro rcp hrcp
      exact ((hconv.exact_keys _).mp (List.mem_map_of_mem hrcp)).1

variable {H : PilotHost} {zk : Zk}

/-- `get_all_replicas` gives this listing.  It returns the number of replicas
as an `int32_t`, and a negative number is a failure. -/
def Reads (H : PilotHost) (zk : Zk) (s : PooledClientImpl) (riv : List ReplicaInfo) : Prop :=
  getAllReplicas H zk s.path = some riv ∧ 0 ≤ toInt32 riv.length

/-- `case REFRESH_ALL` of `process_update_task`. -/
def processRefreshAll (H : PilotHost) (zk : Zk) (net : ℕ → Bool) (s : PooledClientImpl)
    (h : Clients) : PooledClientImpl × Clients :=
  (s.processUpdateTask H zk net h ⟨.refreshAll, []⟩).1

theorem processRefreshAll_of_reads {riv : List ReplicaInfo} (hread : s.Reads H zk riv) :
    s.processRefreshAll H zk net h = s.refreshAll net (riv.filter (·.status ≠ 0)) h := by
  simp only [processRefreshAll, processUpdateTask, readTask, hread.1,
    if_neg (not_lt.mpr hread.2), change]

theorem processRefreshAll_of_failed (hread : ∀ riv, ¬ s.Reads H zk riv) :
    s.processRefreshAll H zk net h = (s, h) := by
  rcases hriv : getAllReplicas H zk s.path with - | riv
  · simp only [processRefreshAll, processUpdateTask, readTask, hriv]
  · have hcount : toInt32 riv.length < 0 := not_le.mp fun hcount => hread riv ⟨hriv, hcount⟩
    simp only [processRefreshAll, processUpdateTask, readTask, hriv, if_pos hcount]

/-- **`REFRESH_ALL` converges to the listing.**  A vector without repeated
tuples has none afterwards either; it holds the listed tuples with a status
other than zero that it had before, with their pools and in their order, and
behind them those whose new pool got a connection.  A listing that could not
be read changes nothing, and neither does the same listing a second time if
every pool got a connection the first time. -/
theorem refresh_converges (H : PilotHost) (zk : Zk) (net : ℕ → Bool) (s : PooledClientImpl)
    (h : Clients) (hs : (s.connPoolVec.map ReplicaConnPool.key).Nodup) :
    (∀ riv, s.Reads H zk riv →
      Converged (riv.filter (·.status ≠ 0)) (made net (riv.filter (·.status ≠ 0)) s h)
        s.connPoolVec (s.processRefreshAll H zk net h).1.connPoolVec ∧
      ((∀ x ∈ made net (riv.filter (·.status ≠ 0)) s h, 0 < x.2.poolSize) → ∀ net',
        (s.processRefreshAll H zk net h).1.processRefreshAll H zk net'
          (s.processRefreshAll H zk net h).2 = s.processRefreshAll H zk net h)) ∧
    ((∀ riv, ¬ s.Reads H zk riv) → s.processRefreshAll H zk net h = (s, h)) := by
  refine ⟨?_, processRefreshAll_of_failed⟩
  intro riv hread
  rw [processRefreshAll_of_reads hread]
  refine ⟨refreshAll_converged net _ hs, ?_⟩
  intro hall net'
  have hagain : (s.refreshAll net (riv.filter (·.status ≠ 0)) h).1.Reads H zk riv := by
    refine ⟨?_, hread.2⟩
    rw [refreshAll_path]
    exact hread.1
  rw [processRefreshAll_of_reads hagain]
  exact refreshAll_again _ net' hs hall

/-- A service with the replicas 1 and 2. -/
def twoReplicas : PooledClientImpl × Clients :=
  (new rpcPath 1).processRefreshAll smallHost (listing [server 1, server 2])
    (fun _ => true) ⟨0, []⟩

/-- The replica 1 is gone, 2 is still there, 3 is new and listed twice, 4 is
new, and 5 has the status zero. -/
def mixedZk : Zk :=
  listing [server 3, server 2, server 3, { server 4 with status := 2 },
    { server 5 with status := 0 }]

/-- The client 3, which is for the replica 4, gets no connection. -/
theorem refresh_converges_mixed :
    ((twoReplicas.1.processRefreshAll smallHost mixedZk (· ≠ 3) twoReplicas.2).1.connPoolVec.map
        ReplicaConnPool.key).Nodup ∧
      (twoReplicas.1.processRefreshAll smallHost mixedZk (· ≠ 3) twoReplicas.2).1.connPoolVec.map
        ReplicaConnPool.key =
      [⟨address 2, 80, TBINARY_PROTOCOL, 1⟩, ⟨address 3, 80, TBINARY_PROTOCOL, 1⟩] :=
  ⟨((refresh_converges smallHost mixedZk (· ≠ 3) twoReplicas.1 twoReplicas.2 (by decide)).1 _
    ⟨rfl, by decide⟩).1.nodup, by decide⟩

end PooledClientImpl

end Pilot

end Xkim
