/-
MsgHandler/Pilot/Release.lean

Where a client goes when it is given back (`thrift/pilot/pooled_client.inl`,
`release_thrift_client`).

The call looks for a pool with the host and port of the client under the reader
lock, and uses the position it found after the lock is dropped.  An update task
in between may erase pools in front of this position, so that another pool
stands there, or none; and the look-up does not compare protocols.  When no task
erases a pool at or in front of a position that is still to be used, and a host
and port always stand for the same protocol, every client goes to a pool with
its host, port and protocol or is deleted (`released_home`).

That no client is lost and none is deleted twice is an equation of multisets:
the idle clients, the clients in use, the clients on their way back and the
deleted ones are the clients that were made (`census`).
-/
import MsgHandler.Pilot.Pools
import MsgHandler.Pilot.Service

namespace Xkim

namespace Pilot

variable {proto : List UInt8 → ℤ → List UInt8} {rcp : ReplicaConnPool} {p : ConnPool}

/-- The protocol of the client is the one of its host and port. -/
def ThriftClient.Agrees (proto : List UInt8 → ℤ → List UInt8) (c : ThriftClient) : Prop :=
  c.protocol = proto c.host c.port

/-- The pool is the one of its replica, its idle clients are its own, and its
protocol is the one of its host and port. -/
structure ReplicaConnPool.Fits (proto : List UInt8 → ℤ → List UInt8)
    (rcp : ReplicaConnPool) : Prop where
  backend : rcp.backendReplica = (rcp.connPool.host, rcp.connPool.port)
  wf : rcp.connPool.connList.Wf
  owns : rcp.connPool.OwnsIdle
  agrees : rcp.connPool.tprotocol = proto rcp.connPool.host rcp.connPool.port

theorem ReplicaConnPool.MadeFor.fits {ri : ReplicaInfo} (hrcp : rcp.MadeFor ri)
    (hri : ri.protocol = proto ri.host ri.port) : rcp.Fits proto where
  backend := by rw [hrcp.backend, hrcp.host, hrcp.port]
  wf := hrcp.wf
  owns := hrcp.owns
  agrees := by rw [hrcp.tprotocol, hrcp.host, hrcp.port, hri]

theorem ReplicaConnPool.Fits.setPool (hrcp : rcp.Fits proto) (hsame : rcp.connPool.Same p)
    (hwf : p.connList.Wf) (hown : p.OwnsIdle) :
    ReplicaConnPool.Fits proto { rcp with connPool := p } where
  backend := by
    show rcp.backendReplica = (p.host, p.port)
    rw [hsame.host, hsame.port, hrcp.backend]
  wf := hwf
  owns := hown
  agrees := by
    show p.tprotocol = proto p.host p.port
    rw [hsame.host, hsame.port, hsame.tprotocol, hrcp.agrees]

/-- A pool with the host and port of a client owns it, when host and port stand
for one protocol. -/
theorem ReplicaConnPool.Fits.owns_of_backend {c : ThriftClient} (hrcp : rcp.Fits proto)
    (hc : c.Agrees proto) (hback : rcp.backendReplica = c.getReplica) : rcp.connPool.Owns c := by
  obtain ⟨hhost, hport⟩ := Prod.mk.inj (hrcp.backend.symm.trans hback)
  refine ⟨hhost.symm, hport.symm, ?_⟩
  rw [hrcp.agrees, hhost, hport]
  exact hc

namespace Service

variable {H : PilotHost} {s s' : Service}

/-! ### Every client is somewhere -/

/-- The clients that exist: the idle ones, those in use, and those on their way
back. -/
def census (s : Service) : Multiset ℕ :=
  idleOf s.vec + ((s.held.map ThriftClient.serial : List ℕ) +
    (s.releasing.map (·.client.serial) : List ℕ))

/-- An element that leaves a list. -/
theorem coe_map_eraseIdx {α : Type*} (f : α → ℕ) {l : List α} {k : ℕ} {a : α}
    (h : l[k]? = some a) :
    ((l.map f : List ℕ) : Multiset ℕ) = f a ::ₘ ((l.eraseIdx k).map f : List ℕ) := by
  obtain ⟨hlt, rfl⟩ := List.getElem?_eq_some_iff.mp h
  rw [Multiset.cons_coe, Multiset.coe_eq_coe, ← List.map_cons]
  exact ((List.getElem_cons_eraseIdx_perm hlt).map f).symm

theorem coe_map_concat {α : Type*} (f : α → ℕ) (l : List α) (a : α) :
    (((l ++ [a]).map f : List ℕ) : Multiset ℕ) = f a ::ₘ (l.map f : List ℕ) := by
  rw [Multiset.cons_coe, Multiset.coe_eq_coe, List.map_append, List.map_singleton]
  exact List.perm_append_singleton _ _

/-- What holds in every state of a run in which clients go home. -/
structure Inv (proto : List UInt8 → ℤ → List UInt8) (s : Service) : Prop where
  pools : ∀ rcp ∈ s.vec, rcp.Fits proto
  accounts : s.clients.Accounts s.census
  held : ∀ c ∈ s.held, c.Agrees proto
  releasing : ∀ r ∈ s.releasing, r.client.Agrees proto ∧
    ∀ i, r.found = some i → ∃ rcp, s.vec[i]? = some rcp ∧
      rcp.backendReplica = r.client.getReplica
  visiting : ∀ i idx, .visit i idx ∈ s.acquiring → s.vec ≠ []
  running : s.faulted = false

theorem inv_start (path : List UInt8) (num : ℤ) : Inv proto (start path num) where
  pools _ hrcp := nomatch hrcp
  accounts := rfl
  held := by simp [start]
  releasing := by simp [start]
  visiting := by simp [start]
  running := rfl

/-- An update task erases no pool at or in front of a position that a release
has still to use, and every host and port stand for one protocol. -/
def Allowed (H : PilotHost) (proto : List UInt8 → ℤ → List UInt8) (s : Service) : Event → Prop
  | .update task zk => ∀ c ∈ (s.pooled.readTask H zk task).1,
      (∀ ri ∈ c.replicas, ri.protocol = proto ri.host ri.port) ∧
        ∀ r ∈ s.releasing, ∀ i ∈ r.found, ∀ rcp ∈ s.vec.take (i + 1), c.keeps rcp = true
  | _ => True

instance (H : PilotHost) (proto : List UInt8 → ℤ → List UInt8) (s : Service) :
    ∀ e, Decidable (Allowed H proto s e)
  | .update task zk => inferInstanceAs (Decidable (∀ c ∈ (s.pooled.readTask H zk task).1, _))
  | .network _ | .acquire | .turn .. | .release .. | .finish .. => isTrue trivial

/-! ### What the events preserve -/

theorem Inv.change {c : Change} (hs : Inv proto s) (hlock : s.readLocked = false)
    (hproto : ∀ ri ∈ c.replicas, ri.protocol = proto ri.host ri.port)
    (hfront : ∀ r ∈ s.releasing, ∀ i ∈ r.found, ∀ rcp ∈ s.vec.take (i + 1), c.keeps rcp = true) :
    Inv proto { s with
      pooled := (s.pooled.change s.net s.clients c).1
      clients := (s.pooled.change s.net s.clients c).2 } := by
  obtain ⟨hpools, hacc⟩ := PooledClientImpl.change_reworks (F := ReplicaConnPool.Fits proto)
    (fun _ hrcp => hrcp.wf) (fun ri hri _ hmade => hmade.fits (hproto ri hri)) s.pooled s.clients
    hs.pools
  refine ⟨hpools, hacc _ hs.accounts, hs.held, ?_, ?_, hs.running⟩
  · intro r hr
    obtain ⟨hagrees, hfound⟩ := hs.releasing r hr
    refine ⟨hagrees, fun i hi => ?_⟩
    obtain ⟨rcp, hrcp, hback⟩ := hfound i hi
    exact ⟨rcp, PooledClientImpl.change_front (hfront r hr i hi) hrcp, hback⟩
  · -- no call holds the reader lock
    intro i idx hmem
    rw [readLocked, List.any_eq_false] at hlock
    exact absurd rfl (hlock _ hmem)

/-- A pool that is used stays at its position, so the positions that releases have found
are as good as before. -/
theorem Inv.releasing_setPool {i : ℕ} {r : Release} (hs : Inv proto s)
    (hrcp : s.vec[i]? = some rcp) (hr : r ∈ s.releasing) :
    r.client.Agrees proto ∧ ∀ j, r.found = some j →
      ∃ x, ({ s with pooled := s.pooled.setPool i rcp p } : Service).vec[j]? = some x ∧
        x.backendReplica = r.client.getReplica := by
  obtain ⟨hagrees, hfound⟩ := hs.releasing r hr
  refine ⟨hagrees, fun j hj => ?_⟩
  obtain ⟨x, hx, hback⟩ := hfound j hj
  obtain ⟨x', hx', hback'⟩ := PooledClientImpl.setPool_backend p hrcp hx
  exact ⟨x', hx', hback'.trans hback⟩

theorem setPool_ne_nil {i : ℕ} (hne : s.vec ≠ []) :
    ({ s with pooled := s.pooled.setPool i rcp p } : Service).vec ≠ [] := by
  rw [← List.length_pos_iff, vec, PooledClientImpl.setPool_length]
  exact List.length_pos_iff.mpr hne

/-- A pool is used, and one of its clients taken. -/
theorem Inv.take {i : ℕ} {o : Option ThriftClient} {h' : Clients} {acquiring : List Acquire}
    (hs : Inv proto s) (hrcp : s.vec[i]? = some rcp)
    (htakes : rcp.connPool.Takes p o s.clients h')
    (hvisit : ∀ j idx, .visit j idx ∈ acquiring → s.vec ≠ []) :
    Inv proto { s with
      pooled := s.pooled.setPool i rcp p
      clients := h'
      held := s.held ++ o.toList
      acquiring := acquiring } := by
  have hfits := hs.pools rcp (List.mem_of_getElem? hrcp)
  obtain ⟨hidleOwn, hown⟩ := htakes.owns hfits.owns
  refine ⟨PooledClientImpl.forall_setPool hs.pools (hfits.setPool htakes.same htakes.wf hidleOwn),
    ?_, ?_, fun r hr => hs.releasing_setPool hrcp hr,
    fun j idx hmem => setPool_ne_nil (hvisit j idx hmem), hs.running⟩
  · obtain ⟨rest, hidle, hset⟩ := idleOf_set hrcp
    have hacc := hs.accounts
    rw [census, hidle, add_assoc] at hacc
    have hacc' := htakes.accounts _ hacc
    show h'.Accounts (idleOf (s.vec.set i _) +
      (((s.held ++ o.toList).map ThriftClient.serial : List ℕ) + _))
    rw [hset]
    convert hacc' using 1
    rw [List.map_append, ← Multiset.coe_add, Option.toList_map]
    ac_rfl
  · intro c hc
    rcases List.mem_append.mp hc with hc | hc
    · exact hs.held c hc
    · have hc' := hown c (Option.mem_toList.mp hc)
      rw [ThriftClient.Agrees, hc'.protocol, hc'.host, hc'.port]
      exact hfits.agrees

theorem Inv.turn {k : ℕ} {a : Acquire} (hs : Inv proto s) (out : Outside)
    (ha : s.acquiring[k]? = some a) : Inv proto (s.turn k out a) := by
  have hset : ∀ b j idx, (∀ j idx, b ≠ Acquire.visit j idx) →
      .visit j idx ∈ s.acquiring.set k b → s.vec ≠ [] := by
    intro b j idx hb hmem
    rcases List.mem_or_eq_of_mem_set hmem with hmem | heq
    · exact hs.visiting j idx hmem
    · exact absurd heq.symm (hb j idx)
  cases a with
  | next i =>
    rw [Service.turn]
    split_ifs with hlt
    · refine ⟨hs.pools, hs.accounts, hs.held, hs.releasing, ?_, hs.running⟩
      intro _ _ _ hnil
      replace hnil : s.vec = [] := hnil
      rw [hnil] at hlt
      exact Nat.not_lt_zero _ hlt
    · exact ⟨hs.pools, hs.accounts, hs.held, hs.releasing, fun j idx => hset _ j idx nofun,
        hs.running⟩
  | visit i hostIdx =>
    have hne := hs.visiting i hostIdx (List.mem_of_getElem? ha)
    obtain ⟨rcp, hrcp⟩ := PooledClientImpl.slot_get hne hostIdx
    obtain ⟨o, p, h', htry, htakes⟩ := PooledClientImpl.tryReplica_spec hrcp
      (hs.pools rcp (List.mem_of_getElem? hrcp)).wf s.net out s.clients
    rw [Service.turn, htry]
    cases o with
    | none =>
      have := hs.take hrcp htakes (fun j idx => hset (.next (i + 1)) j idx nofun)
      rwa [Option.toList_none, List.append_nil] at this
    | some c => exact hs.take hrcp htakes (fun j idx => hset (.returned (some c)) j idx nofun)
  | returned result => exact hs

theorem Inv.release {k : ℕ} {c : ThriftClient} (hs : Inv proto s) (isOpen : Bool)
    (error : ConnErrorStatus) (hc : s.held[k]? = some c) :
    Inv proto (s.release k { c with isOpen := isOpen } error) := by
  refine ⟨hs.pools, ?_, ?_, ?_, hs.visiting, hs.running⟩
  · have hacc := hs.accounts
    rw [census, coe_map_eraseIdx ThriftClient.serial hc] at hacc
    show s.clients.Accounts (idleOf s.vec + (((s.held.eraseIdx k).map ThriftClient.serial : List ℕ)
      + ((s.releasing ++ [_]).map fun r : Release => r.client.serial : List ℕ)))
    rw [coe_map_concat, Multiset.add_cons, ← Multiset.cons_add]
    exact hacc
  · exact fun c' hc' => hs.held c' (List.mem_of_mem_eraseIdx hc')
  · intro r hr
    rcases List.mem_append.mp hr with hr | hr
    · exact hs.releasing r hr
    · rw [List.mem_singleton.mp hr]
      refine ⟨hs.held c (List.mem_of_getElem? hc), fun i hi => ?_⟩
      obtain ⟨hlt, hback, -⟩ := List.findIdx?_eq_some_iff_getElem.mp hi
      exact ⟨_, List.getElem?_eq_getElem hlt, of_decide_eq_true hback⟩

/-- The client of a call that has found its pool is the pool's own. -/
theorem Inv.owns {r : Release} {i : ℕ} (hs : Inv proto s) (hr : r ∈ s.releasing)
    (hi : r.found = some i) : ∃ rcp, s.vec[i]? = some rcp ∧ rcp.connPool.Owns r.client := by
  obtain ⟨hagrees, hfound⟩ := hs.releasing r hr
  obtain ⟨rcp, hrcp, hback⟩ := hfound i hi
  exact ⟨rcp, hrcp, (hs.pools rcp (List.mem_of_getElem? hrcp)).owns_of_backend hagrees hback⟩

/-- The client is deleted, or idle in a pool with its host, port and
protocol. -/
def Settled (c : ThriftClient) (s : Service) : Prop :=
  c.serial ∈ s.clients.deleted ∨
    ∃ rcp ∈ s.vec, rcp.connPool.Owns c ∧ c.serial ∈ rcp.connPool.idle

theorem Inv.finish {k : ℕ} {r : Release} (hs : Inv proto s) (out : Outside)
    (hr : s.releasing[k]? = some r) :
    Inv proto (s.finish k out r) ∧ Settled r.client (s.finish k out r) ∧
      (r.found = none ∨ r.error = .connDrop →
        r.client.serial ∈ (s.finish k out r).clients.deleted) := by
  have hmem := List.mem_of_getElem? hr
  have hacc := hs.accounts
  rw [census, coe_map_eraseIdx (·.client.serial) hr] at hacc
  have hrest : ∀ r' ∈ s.releasing.eraseIdx k, r' ∈ s.releasing := fun _ hr' =>
    List.mem_of_mem_eraseIdx hr'
  unfold Service.finish
  rcases hfound : r.found with - | i
  · -- no pool has its host and port
    refine ⟨⟨hs.pools, ?_, hs.held, fun r' hr' => hs.releasing r' (hrest r' hr'), hs.visiting,
      hs.running⟩, Or.inl List.mem_cons_self, fun _ => List.mem_cons_self⟩
    refine Clients.Accounts.delete ?_
    convert hacc using 1
    rw [census, Multiset.add_cons, Multiset.add_cons]
  · obtain ⟨rcp, hrcp, hown⟩ := hs.owns hmem hfound
    have hrcpFits := hs.pools rcp (List.mem_of_getElem? hrcp)
    obtain ⟨p, h', hput, hget, hdrop⟩ :=
      PooledClientImpl.putBack_spec hrcp hrcpFits.wf s.net out r.client r.error s.clients
    have hfits := PooledClientImpl.forall_setPool (i := i) hs.pools
      (hrcpFits.setPool hget.same hget.wf (hget.owns hrcpFits.owns hown))
    dsimp only
    rw [hput]
    refine ⟨⟨hfits, ?_, hs.held, fun r' hr' => hs.releasing_setPool hrcp (hrest r' hr'),
      fun j idx hvisit => setPool_ne_nil (hs.visiting j idx hvisit), hs.running⟩, ?_, ?_⟩
    · obtain ⟨rest, hidle, hset⟩ := idleOf_set hrcp
      rw [hidle] at hacc
      show h'.Accounts (idleOf (s.vec.set i _) + _)
      rw [hset, add_assoc]
      refine hget.accounts _ ?_
      convert hacc using 1
      rw [Multiset.add_cons, Multiset.add_cons, add_assoc]
    · refine hget.settled.imp_right fun hin => ?_
      refine ⟨{ rcp with connPool := p }, ?_,
        hown.same hget.same (ThriftClient.Same.refl _), hin⟩
      exact List.mem_set (List.getElem?_eq_some_iff.mp hrcp).1 _
    · rintro (hnone | herror)
      · cases hnone
      · exact hdrop herror

theorem Inv.step {e : Event} (hs : Inv proto s) (he : Allowed H proto s e)
    (hstep : Service.step H s e = some s') : Inv proto s' := by
  obtain ⟨-, hhappens⟩ := step_happens hstep
  cases hhappens with
  | network net => exact ⟨hs.pools, hs.accounts, hs.held, hs.releasing, hs.visiting, hs.running⟩
  | idle hread => exact hs
  | change hlock hread =>
    obtain ⟨hproto, hfront⟩ := he _ hread
    exact hs.change hlock hproto hfront
  | acquire =>
    refine ⟨hs.pools, hs.accounts, hs.held, hs.releasing, ?_, hs.running⟩
    intro i idx hmem
    rcases List.mem_append.mp hmem with hmem | hmem
    · exact hs.visiting i idx hmem
    · cases List.mem_singleton.mp hmem
  | turn out ha => exact hs.turn out ha
  | release isOpen error hc => exact hs.release isOpen error hc
  | finish out hr => exact (hs.finish out hr).1

/-! ### Clients go home -/

/-- Nothing outside of the vector is read; every client that was made is idle,
in use, on its way back or deleted, and only one of these, once. -/
def Orderly (s : Service) : Prop := s.faulted = false ∧ s.clients.Accounts s.census

/-- A call of `release_thrift_client` that puts its client back does so at a
position of the vector, into a pool with the host, port and protocol that the
client was created with.  Afterwards the client is idle there or deleted, and
it is deleted if no pool was found or the connection is to be dropped. -/
structure GoesHome (H : PilotHost) (s : Service) (k : ℕ) (out : Outside) (r : Release) :
    Prop where
  home : ∀ i, r.found = some i → r.error ≠ .connDrop →
    ∃ rcp, s.vec[i]? = some rcp ∧ rcp.connPool.Owns r.client
  settled : ∀ s', step H s (.finish k out) = some s' → Settled r.client s'
  deleted : ∀ s', step H s (.finish k out) = some s' →
    r.found = none ∨ r.error = .connDrop → r.client.serial ∈ s'.clients.deleted

/-- The client goes home, if the event is the end of a release. -/
def Homeward (H : PilotHost) (s : Service) (e : Event) : Prop :=
  ∀ k out r, e = .finish k out → s.releasing[k]? = some r → GoesHome H s k out r

theorem Inv.homeward (hs : Inv proto s) (e : Event) : Homeward H s e := by
  rintro k out r rfl hr
  have hafter : ∀ s', Service.step H s (.finish k out) = some s' → s' = s.finish k out r := by
    intro s' hstep
    obtain ⟨-, hhappens⟩ := step_happens hstep
    cases hhappens with
    | finish _ hr' =>
      obtain rfl := Option.some.inj (hr.symm.trans hr')
      rfl
  obtain ⟨-, hsettled, hdeleted⟩ := hs.finish out hr
  refine ⟨fun i hi _ => hs.owns (List.mem_of_getElem? hr) hi, ?_, ?_⟩
  · intro s' hstep
    rw [hafter s' hstep]
    exact hsettled
  · intro s' hstep
    rw [hafter s' hstep]
    exact hdeleted

/-- **Clients go home**, in every interleaving of calls and update tasks in
which no task erases a pool at or in front of a position that a release has
found and not used yet, and a host and port always stand for the same
protocol. -/
theorem released_home (proto : List UInt8 → ℤ → List UInt8) (path : List UInt8) (num : ℤ)
    (es : List Event) (h : Guarded (step H) (Allowed H proto) (start path num) es) :
    Always (step H) Orderly (start path num) es ∧
      Guarded (step H) (Homeward H) (start path num) es := by
  have hkeep : ∀ s e s', Inv proto s → Allowed H proto s e → step H s e = some s' → Inv proto s' :=
    fun _ _ _ hs he hstep => hs.step he hstep
  refine ⟨?_, ?_⟩
  · exact Always.of_guarded hkeep (fun _ hs => ⟨hs.running, hs.accounts⟩) (inv_start path num) h
  · exact Guarded.of_guarded hkeep (fun _ e hs => hs.homeward e) (inv_start path num) h

/-- The replica behind the one of the client leaves while the client is on its
way back. -/
theorem released_home_other_leaves :
    let es := taking [server 1, server 2] 1 ++
      [.release 0 true .connOk, .update ⟨.refreshAll, []⟩ (listing [server 1]),
        .finish 0 plainOutside]
    Always (step smallHost) Orderly (start rpcPath 1) es ∧
      Guarded (step smallHost) (Homeward smallHost) (start rpcPath 1) es :=
  released_home (fun _ _ => TBINARY_PROTOCOL) rpcPath 1 _ (by decide +kernel)

/-- The hosts and protocols of the pools, and of the clients in them. -/
def inventory (s : Service) : List ((List UInt8 × List UInt8) × List (List UInt8 × List UInt8)) :=
  s.vec.map fun rcp => ((rcp.connPool.host, rcp.connPool.tprotocol),
    rcp.connPool.connList.items.map fun c => (c.host, c.protocol))

/-- **Clients go astray**: the replica of the client leaves between the two parts
of the call, and the client goes to the pool that moves up, or the call reads
outside of the vector when there is none.  Where two replicas share host and
port, a client goes to the pool with the other protocol without any task in
between. -/
theorem released_astray :
    (∃ s, runEvents (step smallHost) (start rpcPath 1) (taking [server 1, server 2] 1 ++
        [.release 0 true .connOk, .update ⟨.refreshAll, []⟩ (listing [server 2]),
          .finish 0 plainOutside]) = some s ∧
      s.inventory = [((address 2, TBINARY_PROTOCOL),
        [(address 1, TBINARY_PROTOCOL), (address 2, TBINARY_PROTOCOL)])]) ∧
    (∃ s, runEvents (step smallHost) (start rpcPath 1) (taking [server 1] 1 ++
        [.release 0 true .connOk, .update ⟨.refreshAll, []⟩ (listing []),
          .finish 0 plainOutside]) = some s ∧ s.faulted = true) ∧
    ∃ s, runEvents (step smallHost) (start rpcPath 1) (taking [server 1, compactServer] 2 ++
        [.release 1 true .connOk, .finish 0 plainOutside]) = some s ∧
      s.inventory = [((address 1, TBINARY_PROTOCOL), [(address 1, TCOMPACT_PROTOCOL)]),
        ((address 1, TCOMPACT_PROTOCOL), [])] :=
  ⟨⟨_, rfl, by decide +kernel⟩, ⟨_, rfl, by decide +kernel⟩, ⟨_, rfl, by decide +kernel⟩⟩

end Service

end Pilot

end Xkim
