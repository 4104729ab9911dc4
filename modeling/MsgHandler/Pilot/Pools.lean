/-
MsgHandler/Pilot/Pools.lean

What update tasks and calls do to the pools of a service.

A change erases pools and enters new ones.  `Reworks F` says that a property
`F` of the pools is kept and that the clients of the pools are accounted for;
it is proved for the loops of `process_update_task` one by one, for any `F`
that holds of new pools.  A call of `acquire_thrift_client()` or
`release_thrift_client` uses one pool and leaves the others as they were
(`tryReplica_spec`, `putBack_spec`).
-/
import MsgHandler.Pilot.PooledClient

namespace Xkim

namespace Pilot

variable {F : ReplicaConnPool → Prop} {xs xs' xs'' : List ReplicaConnPool}
  {rcp : ReplicaConnPool} {h h' h'' : Clients} {net : ℕ → Bool} {s : PooledClientImpl}

/-! ### The idle clients of a list of pools -/

def idleOf (xs : List ReplicaConnPool) : Multiset ℕ := (xs.map fun rcp => rcp.connPool.idle).sum

theorem idleOf_cons (rcp : ReplicaConnPool) (xs : List ReplicaConnPool) :
    idleOf (rcp :: xs) = rcp.connPool.idle + idleOf xs := by
  rw [idleOf, List.map_cons, List.sum_cons]
  rfl

theorem idleOf_concat (xs : List ReplicaConnPool) (rcp : ReplicaConnPool) :
    idleOf (xs ++ [rcp]) = rcp.connPool.idle + idleOf xs := by
  rw [idleOf, List.map_append, List.sum_append, List.map_singleton, List.sum_singleton, add_comm]
  rfl

/-- One pool apart from the others. -/
theorem idleOf_set {i : ℕ} (hi : xs[i]? = some rcp) :
    ∃ rest, idleOf xs = rcp.connPool.idle + rest ∧
      ∀ rcp', idleOf (xs.set i rcp') = rcp'.connPool.idle + rest := by
  induction xs generalizing i with
  | nil => cases hi
  | cons x xs ih =>
    cases i with
    | zero =>
      obtain rfl := Option.some.inj hi
      exact ⟨idleOf xs, idleOf_cons _ _, fun rcp' => idleOf_cons _ _⟩
    | succ i =>
      obtain ⟨rest, hxs, hset⟩ := ih hi
      refine ⟨x.connPool.idle + rest, ?_, fun rcp' => ?_⟩
      · rw [idleOf_cons, hxs, add_left_comm]
      · rw [List.set_cons_succ, idleOf_cons, hset, add_left_comm]

/-! ### What a change does to the pools -/

/-- The pool was created for the replica. -/
structure ReplicaConnPool.MadeFor (rcp : ReplicaConnPool) (ri : ReplicaInfo) : Prop where
  backend : rcp.backendReplica = (ri.host, ri.port)
  host : rcp.connPool.host = ri.host
  port : rcp.connPool.port = ri.port
  tprotocol : rcp.connPool.tprotocol = ri.protocol
  wf : rcp.connPool.connList.Wf
  owns : rcp.connPool.OwnsIdle

/-- `F` still holds of the pools; the clients of the pools that were erased are
deleted, those of the pools that were entered made. -/
def Reworks (F : ReplicaConnPool → Prop) (xs xs' : List ReplicaConnPool) (h h' : Clients) :
    Prop :=
  (∀ rcp ∈ xs, F rcp) → (∀ rcp ∈ xs', F rcp) ∧
    ∀ m, h.Accounts (idleOf xs + m) → h'.Accounts (idleOf xs' + m)

theorem Reworks.refl (xs : List ReplicaConnPool) (h : Clients) : Reworks F xs xs h h :=
  fun hfits => ⟨hfits, fun _ hm => hm⟩

theorem Reworks.trans (hr : Reworks F xs xs' h h') (hr' : Reworks F xs' xs'' h' h'') :
    Reworks F xs xs'' h h'' := by
  intro hfits
  obtain ⟨hfits', hacc⟩ := hr hfits
  obtain ⟨hfits'', hacc'⟩ := hr' hfits'
  exact ⟨hfits'', fun m hm => hacc' m (hacc m hm)⟩

theorem Reworks.cons (rcp : ReplicaConnPool) (hr : Reworks F xs xs' h h') :
    Reworks F (rcp :: xs) (rcp :: xs') h h' := by
  intro hfits
  obtain ⟨hhead, htail⟩ := List.forall_mem_cons.mp hfits
  obtain ⟨hfits', hacc⟩ := hr htail
  refine ⟨List.forall_mem_cons.mpr ⟨hhead, hfits'⟩, fun m hm => ?_⟩
  rw [idleOf_cons, add_comm rcp.connPool.idle, add_assoc] at hm ⊢
  exact hacc _ hm

theorem Reworks.erase (hF : ∀ rcp, F rcp → rcp.connPool.connList.Wf) (rcp : ReplicaConnPool)
    (xs : List ReplicaConnPool) (h : Clients) :
    Reworks F (rcp :: xs) xs h (rcp.connPool.destroy h) := by
  intro hfits
  obtain ⟨hhead, htail⟩ := List.forall_mem_cons.mp hfits
  refine ⟨htail, fun m hm => ConnPool.accounts_destroy (hF rcp hhead) ?_⟩
  rwa [idleOf_cons, add_assoc] at hm

namespace PooledClientImpl

section Changes

variable (hF : ∀ rcp, F rcp → rcp.connPool.connList.Wf)
include hF

theorem eraseUnlisted_reworks (riv : List ReplicaInfo) (xs : List ReplicaConnPool)
    (map : ℕ → Option ℤ) (h : Clients) :
    Reworks F xs (eraseUnlisted riv xs map h).1 h (eraseUnlisted riv xs map h).2.2 := by
  induction xs generalizing map h with
  | nil => exact Reworks.refl [] h
  | cons rcp xs ih =>
    rw [eraseUnlisted]
    split_ifs
    · exact (ih map h).cons rcp
    · exact (Reworks.erase hF rcp xs h).trans (ih _ _)

theorem eraseReplica_reworks (ri : ReplicaInfo) (xs : List ReplicaConnPool)
    (map : ℕ → Option ℤ) (h : Clients) :
    Reworks F xs (eraseReplica ri xs map h).1 h (eraseReplica ri xs map h).2.2 := by
  induction xs with
  | nil => exact Reworks.refl [] h
  | cons rcp xs ih =>
    rw [eraseReplica]
    split_ifs
    · exact Reworks.erase hF rcp xs h
    · exact ih.cons rcp

theorem destroyAll_reworks (xs : List ReplicaConnPool) (h : Clients) :
    Reworks F xs [] h (destroyAll xs h) := by
  induction xs generalizing h with
  | nil => exact Reworks.refl [] h
  | cons rcp xs ih => exact (Reworks.erase hF rcp xs h).trans (ih _)

omit hF in
theorem pushReplica_reworks {ri : ReplicaInfo} (hri : ∀ rcp, rcp.MadeFor ri → F rcp)
    (s : PooledClientImpl) (h : Clients) :
    Reworks F s.connPoolVec (s.pushReplica net ri h).1.connPoolVec h
      (s.pushReplica net ri h).2 := by
  intro hfits
  obtain ⟨⟨hhost, hport, hprotocol⟩, hwf, hown, hmade⟩ :=
    ConnPool.new_spec ri.host ri.port s.numClientsPerReplica ri.protocol net h
  unfold pushReplica
  dsimp only at hhost hport hprotocol hwf hown hmade ⊢
  split_ifs
  · refine ⟨?_, fun m hm => ?_⟩
    · intro rcp hrcp
      rcases List.mem_append.mp hrcp with hrcp | hrcp
      · exact hfits rcp hrcp
      · rw [List.mem_singleton.mp hrcp]
        exact hri _ ⟨rfl, hhost, hport, hprotocol, hwf, hown⟩
    · rw [idleOf_concat, add_assoc]
      exact hmade _ hm
  · -- no connection: the new pool is destroyed at once
    exact ⟨hfits, fun m hm => ConnPool.accounts_destroy hwf (hmade _ hm)⟩

omit hF in
theorem addUnfound_reworks {riv : List ReplicaInfo}
    (hriv : ∀ ri ∈ riv, ∀ rcp, rcp.MadeFor ri → F rcp) (s : PooledClientImpl) (h : Clients) :
    Reworks F s.connPoolVec (addUnfound net riv s h).1.connPoolVec h
      (addUnfound net riv s h).2 := by
  induction riv generalizing s h with
  | nil => exact Reworks.refl _ h
  | cons ri riv ih =>
    obtain ⟨hri, hriv⟩ := List.forall_mem_cons.mp hriv
    rw [addUnfound]
    split_ifs
    · exact ih hriv s h
    · exact (pushReplica_reworks hri s h).trans (ih hriv _ _)

/-- **A change of the pools** keeps what holds of new pools, and every client is
accounted for. -/
theorem change_reworks {c : Change} (hc : ∀ ri ∈ c.replicas, ∀ rcp, rcp.MadeFor ri → F rcp)
    (s : PooledClientImpl) (h : Clients) :
    Reworks F s.connPoolVec (s.change net h c).1.connPoolVec h (s.change net h c).2 := by
  cases c with
  | refresh riv =>
    have herase := eraseUnlisted_reworks hF riv s.connPoolVec s.replicaMap h
    unfold change refreshAll
    dsimp only
    split_ifs
    · exact destroyAll_reworks hF _ h
    · set r := eraseUnlisted riv s.connPoolVec s.replicaMap h
      exact herase.trans
        (addUnfound_reworks hc { s with connPoolVec := r.1, replicaMap := r.2.1 } r.2.2)
  | value ri =>
    have herase := eraseReplica_reworks hF ri s.connPoolVec s.replicaMap h
    unfold change nodeValueChanged
    dsimp only
    split_ifs
    · set r := eraseReplica ri s.connPoolVec s.replicaMap h
      exact herase.trans (pushReplica_reworks (hc ri List.mem_cons_self)
        { s with connPoolVec := r.1, replicaMap := r.2.1 } r.2.2)
    · exact herase

end Changes

/-! ### What a change leaves at its position -/

theorem eraseUnlisted_front {riv : List ReplicaInfo} {map : ℕ → Option ℤ} {i : ℕ}
    (hkeep : ∀ x ∈ xs.take (i + 1), (Change.refresh riv).keeps x = true)
    (hi : xs[i]? = some rcp) : (eraseUnlisted riv xs map h).1[i]? = some rcp := by
  induction xs generalizing i map h with
  | nil => cases hi
  | cons x xs ih =>
    rw [List.take_succ_cons] at hkeep
    obtain ⟨hhead, htail⟩ := List.forall_mem_cons.mp hkeep
    rw [eraseUnlisted, if_pos (show riv.any x.listed = true from hhead)]
    cases i with
    | zero => exact hi
    | succ i => exact ih htail hi

theorem eraseReplica_front {ri : ReplicaInfo} {i : ℕ} (map : ℕ → Option ℤ) (h : Clients)
    (hkeep : ∀ x ∈ xs.take (i + 1), (Change.value ri).keeps x = true)
    (hi : xs[i]? = some rcp) : (eraseReplica ri xs map h).1[i]? = some rcp := by
  induction xs generalizing i with
  | nil => cases hi
  | cons x xs ih =>
    rw [List.take_succ_cons] at hkeep
    obtain ⟨hhead, htail⟩ := List.forall_mem_cons.mp hkeep
    rw [eraseReplica, if_neg (by simpa [Change.keeps] using hhead)]
    cases i with
    | zero => exact hi
    | succ i => exact ih htail hi

theorem pushReplica_front {ri : ReplicaInfo} {i : ℕ} (hi : s.connPoolVec[i]? = some rcp) :
    (s.pushReplica net ri h).1.connPoolVec[i]? = some rcp := by
  unfold pushReplica
  dsimp only
  split_ifs
  · exact (List.getElem?_append_left (List.getElem?_eq_some_iff.mp hi).1).trans hi
  · exact hi

theorem addUnfound_front {riv : List ReplicaInfo} {i : ℕ} (hi : s.connPoolVec[i]? = some rcp) :
    (addUnfound net riv s h).1.connPoolVec[i]? = some rcp := by
  induction riv generalizing s h with
  | nil => exact hi
  | cons ri riv ih =>
    rw [addUnfound]
    split_ifs
    · exact ih hi
    · exact ih (pushReplica_front hi)

/-- A pool stays at its position when neither it nor a pool in front of it is
erased. -/
theorem change_front {c : Change} {i : ℕ}
    (hkeep : ∀ x ∈ s.connPoolVec.take (i + 1), c.keeps x = true)
    (hi : s.connPoolVec[i]? = some rcp) :
    (s.change net h c).1.connPoolVec[i]? = some rcp := by
  cases c with
  | refresh riv =>
    unfold change refreshAll
    dsimp only
    split_ifs with hnil
    · have hmem : rcp ∈ s.connPoolVec.take (i + 1) := by
        refine List.mem_of_getElem? (i := i) ?_
        rw [List.getElem?_take_of_lt (Nat.lt_succ_self i), hi]
      have hnot := hkeep rcp hmem
      rw [hnil] at hnot
      cases hnot
    · exact addUnfound_front (eraseUnlisted_front hkeep hi)
  | value ri =>
    have herase := eraseReplica_front s.replicaMap h hkeep hi
    unfold change nodeValueChanged
    dsimp only
    split_ifs
    · exact pushReplica_front herase
    · exact herase

end PooledClientImpl

/-! ### One pool at a time -/

theorem ConnPool.takes_tryAcquire {p : ConnPool} (hp : p.connList.Wf) (net : ℕ → Bool)
    (out : Outside) (h : Clients) :
    Takes p (p.tryAcquire net out h).2.1 (p.tryAcquire net out h).1 h
      (p.tryAcquire net out h).2.2 := by
  unfold ConnPool.tryAcquire
  split
  · exact takes_handOut net out.retry hp h
  · -- after a refresh, with an error reported or not
    have hrefresh := keeps_refresh net hp h
    have hkeeps : Keeps p
        (if (p.refresh net h).1 then (p.refresh net h).2.1
          else (p.refresh net h).2.1.reportError out.later) h (p.refresh net h).2.2 := by
      split_ifs
      · exact hrefresh
      · exact hrefresh.trans (keeps_reportError hrefresh.wf _ _)
    exact hkeeps.takes (takes_handOut net out.retry hkeeps.wf _)
  · exact (Keeps.refl hp h).takes_none
  · exact (Keeps.refl hp h).takes_none

theorem ThriftClient.reconnect_same (net : ℕ → Bool) (out : Outside) (c : ThriftClient) :
    ThriftClient.Same c (c.reconnect net out) :=
  (c.closeService_same _).trans (ThriftClient.openService_same _ _)

namespace PooledClientImpl

theorem setPool_self {i : ℕ} (hi : s.connPoolVec[i]? = some rcp) :
    s.setPool i rcp rcp.connPool = s := by
  show { s with connPoolVec := s.connPoolVec.set i rcp } = s
  obtain ⟨hlt, rfl⟩ := List.getElem?_eq_some_iff.mp hi
  rw [List.set_getElem_self]

/-- The pools after one of them has changed. -/
theorem forall_setPool {i : ℕ} {p : ConnPool} (hfits : ∀ rcp ∈ s.connPoolVec, F rcp)
    (hp : F { rcp with connPool := p }) : ∀ x ∈ (s.setPool i rcp p).connPoolVec, F x := by
  intro x hx
  rcases List.mem_or_eq_of_mem_set hx with hx | rfl
  · exact hfits x hx
  · exact hp

theorem setPool_length (i : ℕ) (rcp : ReplicaConnPool) (p : ConnPool) :
    (s.setPool i rcp p).connPoolVec.length = s.connPoolVec.length :=
  List.length_set ..

/-- Every position still stands for the replica it stood for. -/
theorem setPool_backend {i j : ℕ} {x : ReplicaConnPool} (p : ConnPool)
    (hi : s.connPoolVec[i]? = some rcp) (hj : s.connPoolVec[j]? = some x) :
    ∃ x', (s.setPool i rcp p).connPoolVec[j]? = some x' ∧
      x'.backendReplica = x.backendReplica := by
  rcases eq_or_ne i j with rfl | hne
  · obtain rfl := Option.some.inj (hi.symm.trans hj)
    exact ⟨_, List.getElem?_set_self (List.getElem?_eq_some_iff.mp hi).1, rfl⟩
  · exact ⟨x, (List.getElem?_set_ne hne).trans hj, rfl⟩

theorem slot_get (hne : s.connPoolVec ≠ []) (hostIdx : BitVec 32) :
    ∃ rcp, s.connPoolVec[slot s.connPoolVec.length hostIdx]? = some rcp :=
  ⟨_, List.getElem?_eq_getElem (Nat.mod_lt _ (List.length_pos_iff.mpr hne))⟩

/-- A round of the loop of `acquire_thrift_client()` takes a client from one
pool, or none. -/
theorem tryReplica_spec {hostIdx : BitVec 32}
    (hrcp : s.connPoolVec[slot s.connPoolVec.length hostIdx]? = some rcp)
    (hwf : rcp.connPool.connList.Wf) (net : ℕ → Bool) (out : Outside) (h : Clients) :
    ∃ o p h', s.tryReplica net out hostIdx h
        = some (o, s.setPool (slot s.connPoolVec.length hostIdx) rcp p, h') ∧
      rcp.connPool.Takes p o h h' := by
  unfold tryReplica
  rw [hrcp]
  dsimp only
  split_ifs
  · refine ⟨none, rcp.connPool, h, ?_, (ConnPool.Keeps.refl hwf h).takes_none⟩
    rw [setPool_self hrcp]
  · exact ⟨_, _, _, rfl, ConnPool.takes_tryAcquire hwf net out h⟩

/-- The client that is put back is idle or deleted. -/
theorem putBack_spec {i : ℕ} (hi : s.connPoolVec[i]? = some rcp)
    (hwf : rcp.connPool.connList.Wf) (net : ℕ → Bool) (out : Outside) (c : ThriftClient)
    (error : ConnErrorStatus) (h : Clients) :
    ∃ p h', s.putBack net out i c error h = some (s.setPool i rcp p, h') ∧
      rcp.connPool.Gets p c h h' ∧ (error = .connDrop → c.serial ∈ h'.deleted) := by
  unfold putBack
  rw [hi]
  cases error with
  | connOk =>
    have hclear := ConnPool.keeps_clearError hwf h out.now
    have hget := ConnPool.gets_releaseClient hclear.wf c h
    exact ⟨_, _, rfl, hclear.gets hget, nofun⟩
  | connDrop =>
    have herror := ConnPool.keeps_reportError hwf h out.now
    exact ⟨_, _, rfl, ⟨herror.same, herror.wf, fun hown _ => herror.owns hown,
      fun m hm => hm.delete, Or.inl List.mem_cons_self⟩, fun _ => List.mem_cons_self⟩
  | connReconnect =>
    have hget := ConnPool.gets_releaseClient hwf (c.reconnect net out) h
    exact ⟨_, _, rfl, hget.of_same (c.reconnect_same net out), nofun⟩

end PooledClientImpl

end Pilot

end Xkim
