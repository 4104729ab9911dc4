/-
MsgHandler/Pilot/PoolBound.lean

How many idle clients a `ConnPool` holds (`thrift/pilot/conn_pool.inl`).

The pool is meant to hold `conn_num_` clients.  The limit is checked in one
place, `release_client_`, and there a client is deleted only when the list is
already longer than `conn_num_`: a client that comes back to a full pool is
linked as well.  As long as the pool was filled once, nobody sees this, since
a client that comes back finds its own place empty.  But `refresh` fills the
pool while clients are out.

So the bound holds in exactly the runs in which no client is given back to a
full pool (`bounded_iff_room`), and in every run it is exceeded by one at
most (`len_le_succ`).  The counter and the list agree in every run.
-/
import MsgHandler.Pilot.ConnPool
import MsgHandler.Run

namespace Xkim

namespace Pilot

/-! ### What the operations do to the length -/

namespace ConnPool

variable {p : ConnPool} {h : Clients}

/-- The pool is in order and holds at most `n` clients. -/
structure Within (n : ℤ) (p : ConnPool) : Prop where
  wf : p.connList.Wf
  le : p.connList.len ≤ n

/-- One connection more, if it can be opened. -/
theorem initOneConn_within (net : ℕ → Bool) {n : ℤ} (hp : p.Within n) :
    (p.initOneConn net h).1.Within (n + 1) := by
  refine ⟨(keeps_initOneConn net hp.wf h).wf, ?_⟩
  have hle := hp.le
  unfold initOneConn
  dsimp only
  split_ifs
  · rw [releaseClient_len hp.wf]
    split_ifs <;> omega
  · show p.connList.len ≤ n + 1
    omega

theorem initOneConn_connNum (net : ℕ → Bool) (p : ConnPool) (h : Clients) :
    (p.initOneConn net h).1.connNum = p.connNum := by
  unfold initOneConn
  dsimp only
  split_ifs
  · exact releaseClient_connNum _ _ _
  · rfl

theorem initLoop_within (net : ℕ → Bool) (k : ℕ) (num : ℤ) {n : ℤ} (hp : p.Within n) :
    (initLoop net k num p h).2.1.Within (n + k) ∧
      (initLoop net k num p h).2.1.connNum = p.connNum := by
  induction k generalizing num p h n with
  | zero =>
    refine ⟨⟨hp.wf, ?_⟩, rfl⟩
    have hle := hp.le
    show p.connList.len ≤ n + (0 : ℕ)
    omega
  | succ k ih =>
    obtain ⟨hrest, hnum⟩ := ih (h := (p.initOneConn net h).2)
      (p.initOneConn net h).1.connList.len (initOneConn_within net hp (h := h))
    refine ⟨⟨hrest.wf, ?_⟩, hnum.trans (initOneConn_connNum net p h)⟩
    have hle := hrest.le
    show (initLoop net k _ _ _).2.1.connList.len ≤ n + (k + 1 : ℕ)
    omega

theorem clear_within (hp : p.connList.Wf) : (p.clear h).1.Within 0 := by
  obtain ⟨hkeeps, hnil⟩ := clearLoop_spec (h := h) hp le_rfl
  refine ⟨hkeeps.wf, ?_⟩
  have hlen : (p.clear h).1.connList.len = (p.clear h).1.connList.items.length := hkeeps.wf.len
  have hitems : (p.clear h).1.connList.items = [] := hnil
  rw [hlen, hitems]
  exact le_refl 0

theorem clearLoop_connNum (n : ℕ) (p : ConnPool) (h : Clients) :
    (clearLoop n p h).1.connNum = p.connNum := by
  induction n generalizing p h with
  | zero => rfl
  | succ n ih =>
    rw [clearLoop]
    split
    · rfl
    · exact ih _ _

/-- `refresh` leaves at most `conn_num_` clients, whatever there was before. -/
theorem refresh_within (net : ℕ → Bool) (hp : p.connList.Wf) (hnum : 0 ≤ p.connNum) :
    (p.refresh net h).2.1.Within p.connNum ∧ (p.refresh net h).2.1.connNum = p.connNum := by
  have hclear : (p.clear h).1.connNum = p.connNum := clearLoop_connNum _ p h
  obtain ⟨hinit, hsame⟩ := initLoop_within net (p.clear h).1.connNum.toNat 0
    (clear_within hp (h := h)) (h := (p.clear h).2)
  refine ⟨⟨hinit.wf, ?_⟩, hsame.trans hclear⟩
  have hle := hinit.le
  rw [hclear] at hle
  show (initLoop net (p.clear h).1.connNum.toNat 0 _ _).2.1.connList.len ≤ p.connNum
  rw [hclear]
  omega

end ConnPool

/-! ### Runs of a pool -/

/-- A pool, the clients that are out, and all clients there have been. -/
structure PoolState where
  pool : ConnPool
  held : List ThriftClient
  clients : Clients

/-- A call to the pool.  A client that is given back is the `i`-th of those
that are out; its transport may have been opened or closed meanwhile. -/
inductive PoolCall
  | acquire
  | release (i : ℕ) (isOpen : Bool)
  | refresh (net : ℕ → Bool)
  | clear

namespace PoolState

/-- The pool after its constructor. -/
def new (host : List UInt8) (port connNum : ℤ) (tprotocol : List UInt8) (net : ℕ → Bool)
    (h : Clients) : PoolState :=
  let r := ConnPool.new host port connNum tprotocol net h
  ⟨r.1, [], r.2⟩

/-- One call. -/
def step (s : PoolState) : PoolCall → Option PoolState
  | .acquire =>
    let r := s.pool.acquireClient
    some { s with pool := r.2, held := r.1.toList ++ s.held }
  | .release i isOpen =>
    s.held[i]?.map fun c =>
      let r := s.pool.releaseClient { c with isOpen := isOpen } s.clients
      ⟨r.1, s.held.eraseIdx i, r.2⟩
  | .refresh net =>
    let r := s.pool.refresh net s.clients
    some { s with pool := r.2.1, clients := r.2.2 }
  | .clear =>
    let r := s.pool.clear s.clients
    some { s with pool := r.1, clients := r.2 }

/-- The pool holds at most as many clients as it is configured for, and
`len()` is the number of clients in its list. -/
structure Bounded (s : PoolState) : Prop where
  le : s.pool.connList.len ≤ s.pool.connNum
  len : s.pool.connList.len = s.pool.connList.items.length

/-- No client is given back to a full pool. -/
def Room (s : PoolState) : PoolCall → Prop
  | .release _ _ => s.pool.connList.len < s.pool.connNum
  | _ => True

/-- Every call keeps `conn_num_`, and the order of the list. -/
theorem step_wf {s s' : PoolState} {e : PoolCall} (hs : s.pool.connList.Wf)
    (h : step s e = some s') : s'.pool.connList.Wf ∧ s'.pool.connNum = s.pool.connNum := by
  cases e with
  | acquire =>
    obtain rfl := Option.some.inj h
    refine ⟨?_, rfl⟩
    rcases ConnPool.acquireClient_cases hs with ⟨-, hnone⟩ | ⟨c, p', hsome, -, -, hwf, -⟩
    · show s.pool.acquireClient.2.connList.Wf
      rw [hnone]
      exact hs
    · show s.pool.acquireClient.2.connList.Wf
      rw [hsome]
      exact hwf
  | release i isOpen =>
    obtain ⟨c, -, rfl⟩ := Option.map_eq_some_iff.mp h
    exact ⟨(ConnPool.gets_releaseClient hs _ _).wf, ConnPool.releaseClient_connNum _ _ _⟩
  | refresh net =>
    obtain rfl := Option.some.inj h
    refine ⟨(ConnPool.keeps_refresh net hs _).wf, ?_⟩
    obtain ⟨-, hnum⟩ := ConnPool.initLoop_within net (s.pool.clear s.clients).1.connNum.toNat 0
      (ConnPool.clear_within hs (h := s.clients)) (h := (s.pool.clear s.clients).2)
    exact hnum.trans (ConnPool.clearLoop_connNum _ _ _)
  | clear =>
    obtain rfl := Option.some.inj h
    exact ⟨(ConnPool.keeps_clear hs _).wf, ConnPool.clearLoop_connNum _ _ _⟩

/-- A call other than a release does not exceed a bound that `conn_num_` meets. -/
theorem step_le {s s' : PoolState} {e : PoolCall} {n : ℤ} (hs : s.pool.connList.Wf)
    (hnum : 0 ≤ s.pool.connNum) (hn : s.pool.connNum ≤ n) (hle : s.pool.connList.len ≤ n)
    (hrelease : ∀ i o, e = .release i o → s.pool.connList.len < n ∨
      s.pool.connNum < s.pool.connList.len) (h : step s e = some s') :
    s'.pool.connList.len ≤ n := by
  cases e with
  | acquire =>
    obtain rfl := Option.some.inj h
    show s.pool.acquireClient.2.connList.len ≤ n
    rcases ConnPool.acquireClient_cases hs with ⟨-, hnone⟩ | ⟨c, p', hsome, -, -, hwf, hitems⟩
    · rw [hnone]
      exact hle
    · have hlen := hs.len
      rw [hitems, List.length_append, List.length_singleton] at hlen
      rw [hsome, hwf.len]
      omega
  | release i isOpen =>
    obtain ⟨c, -, rfl⟩ := Option.map_eq_some_iff.mp h
    show (s.pool.releaseClient _ _).1.connList.len ≤ n
    rw [ConnPool.releaseClient_len hs]
    have hroom := hrelease i isOpen rfl
    split_ifs <;> omega
  | refresh net =>
    obtain rfl := Option.some.inj h
    exact (ConnPool.refresh_within net hs hnum).1.le.trans hn
  | clear =>
    obtain rfl := Option.some.inj h
    exact (ConnPool.clear_within hs).le.trans (hnum.trans hn)

/-- A client that is given back to a full pool is one too many. -/
theorem room_of_bounded {s s' : PoolState} {e : PoolCall} (hs : s.pool.connList.Wf)
    (hle : s.pool.connList.len ≤ s.pool.connNum) (h : step s e = some s') (hs' : s'.Bounded) :
    Room s e := by
  cases e with
  | release i isOpen =>
    obtain ⟨c, -, rfl⟩ := Option.map_eq_some_iff.mp h
    have hbound : (s.pool.releaseClient _ _).1.connList.len ≤
        (s.pool.releaseClient _ _).1.connNum := hs'.le
    rw [ConnPool.releaseClient_len hs, ConnPool.releaseClient_connNum, if_neg (not_lt.mpr hle)]
      at hbound
    show s.pool.connList.len < s.pool.connNum
    omega
  | acquire => trivial
  | refresh net => trivial
  | clear => trivial

variable (host : List UInt8) (port connNum : ℤ) (tprotocol : List UInt8) (net : ℕ → Bool)
  (h : Clients)

theorem new_wf : (new host port connNum tprotocol net h).pool.connList.Wf ∧
    (new host port connNum tprotocol net h).pool.connNum = connNum ∧
      (new host port connNum tprotocol net h).pool.connList.len ≤ max connNum 0 := by
  obtain ⟨hwithin, hnum⟩ := ConnPool.initLoop_within net connNum.toNat 0 (h := h) (n := 0)
    (p := ⟨host, port, connNum, tprotocol, .empty, 0, ⟨0, 0⟩⟩)
    ⟨UnsafeWaitList.wf_empty, le_refl 0⟩
  refine ⟨hwithin.wf, hnum, ?_⟩
  have hle := hwithin.le
  show (ConnPool.initLoop net connNum.toNat 0 _ h).2.1.connList.len ≤ _
  omega

/-- **The bound holds exactly where there is room.**  A pool that has been
configured for `conn_num_` clients never holds more of them, and `len()` is
the number of clients in its list, in exactly the runs in which every client
is given back to a pool with less than `conn_num_` clients. -/
theorem bounded_iff_room (es : List PoolCall) :
    Always step Bounded (new host port connNum tprotocol net h) es ↔
      0 ≤ connNum ∧ Guarded step Room (new host port connNum tprotocol net h) es := by
  obtain ⟨hwf, hnum, hlen⟩ := new_wf host port connNum tprotocol net h
  by_cases hneg : 0 ≤ connNum
  · rw [max_eq_left hneg] at hlen
    refine Iff.trans ?_ (and_iff_right hneg).symm
    refine always_iff_guarded
      (I := fun s => s.pool.connList.Wf ∧ s.pool.connNum = connNum ∧ s.pool.connList.len ≤ connNum)
      (K := fun _ _ => True) ?_ ?_ ?_ ⟨hwf, hnum, hlen⟩ (guarded_true _ _)
    · rintro s e s' ⟨hs, hn, hle⟩ - hroom hstep
      obtain ⟨hs', hn'⟩ := step_wf hs hstep
      refine ⟨hs', hn'.trans hn, step_le hs (by omega) hn.le hle ?_ hstep⟩
      rintro i o rfl
      have hlt : s.pool.connList.len < s.pool.connNum := hroom
      exact Or.inl (by omega)
    · rintro s ⟨hs, hn, hle⟩
      exact ⟨by omega, hs.len⟩
    · rintro s e s' ⟨hs, hn, hle⟩ - hstep hb
      exact room_of_bounded hs (by omega) hstep hb
  · -- a pool for a negative number of clients is too large when it is empty
    refine ⟨fun hall => absurd ?_ hneg, fun hall => absurd hall.1 hneg⟩
    have hb := hall.head
    have h₁ := hb.le
    have h₂ := hb.len
    omega

/-- **One too many is the most there can be**, in any run. -/
theorem len_le_succ (hnum : 0 ≤ connNum) (es : List PoolCall) :
    Always step (fun s => s.pool.connList.len ≤ connNum + 1 ∧
      s.pool.connList.len = s.pool.connList.items.length)
      (new host port connNum tprotocol net h) es := by
  obtain ⟨hwf, hn, hlen⟩ := new_wf host port connNum tprotocol net h
  rw [max_eq_left hnum] at hlen
  refine Always.of_guarded
    (I := fun s => s.pool.connList.Wf ∧ s.pool.connNum = connNum ∧
      s.pool.connList.len ≤ connNum + 1)
    ?_ ?_ ⟨hwf, hn, by omega⟩ (guarded_true _ _)
  · rintro s e s' ⟨hs, hn, hle⟩ - hstep
    obtain ⟨hs', hn'⟩ := step_wf hs hstep
    refine ⟨hs', hn'.trans hn, step_le hs (by omega) (by omega) hle ?_ hstep⟩
    intro i o _
    omega
  · rintro s ⟨hs, -, hle⟩
    exact ⟨hle, hs.len⟩

/-- **A refresh while a client is out**: a pool for one client holds two when
the client comes back. -/
theorem refresh_while_out :
    (runEvents step (new [] 80 1 [] (fun _ => true) ⟨0, []⟩)
        [.acquire, .refresh fun _ => true, .release 0 true]).map
      (fun s => (s.pool.connNum, s.pool.connList.len)) = some (1, 2) ∧
    ¬ Always step Bounded (new [] 80 1 [] (fun _ => true) ⟨0, []⟩)
      [.acquire, .refresh fun _ => true, .release 0 true] := by
  have hrun : (runEvents step (new [] 80 1 [] (fun _ => true) ⟨0, []⟩)
      [.acquire, .refresh fun _ => true, .release 0 true]).map
        (fun s => (s.pool.connNum, s.pool.connList.len)) = some (1, 2) := by
    decide
  refine ⟨hrun, ?_⟩
  intro hall
  obtain ⟨s, hs, heq⟩ := Option.map_eq_some_iff.mp hrun
  have hle := (hall.last hs).le
  obtain ⟨h₁, h₂⟩ := Prod.mk.inj heq
  omega

end PoolState

end Pilot

end Xkim
