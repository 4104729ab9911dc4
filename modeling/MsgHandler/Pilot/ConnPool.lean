/-
MsgHandler/Pilot/ConnPool.lean

The thrift clients of one replica (`thrift/pilot/thrift_client.{h,inl}`,
`thrift/pilot/conn_pool.{h,inl}`, `thrift/pilot/unsafe_wait_list.h`).

A `ConnPool` keeps the idle clients of a replica in a list: `release_client`
puts a client in front, `acquire_client` takes the one at the end, so the idle
client that has waited longest is handed out.  Every client has a serial
number here, and the clients that were created and deleted are counted
(`Clients`), so that a result can say that no client is lost and none is
deleted twice (`Clients.Accounts`).

Whether `TTransport::open` succeeds is an argument: `net` says it of every
client, by its serial number.  Transports are otherwise known only by
`isOpen`, which `open` makes true and `close` makes false unless they throw.
-/
import MsgHandler.Message

namespace Xkim

namespace Pilot

/-! ### Thrift clients -/

/-- `struct timeval`. -/
structure Timeval where
  sec : ℤ
  usec : ℤ
  deriving DecidableEq, Repr

/-- `timeval_add`. -/
def Timeval.add (t u : Timeval) : Timeval :=
  if 1000000 ≤ t.usec + u.usec then ⟨t.sec + u.sec + 1, t.usec + u.usec - 1000000⟩
  else ⟨t.sec + u.sec, t.usec + u.usec⟩

/-- `ThriftClient`; `host`, `port` and `protocol` are the arguments of the
constructor. -/
structure ThriftClient where
  serial : ℕ
  host : List UInt8
  port : ℤ
  protocol : List UInt8
  isOpen : Bool
  deriving DecidableEq, Repr

namespace ThriftClient

def getReplica (c : ThriftClient) : List UInt8 × ℤ := (c.host, c.port)

/-- `open_service`; `ok` says whether `transport_->open()` returns. -/
def openService (c : ThriftClient) (ok : Bool) : ℤ × ThriftClient :=
  if c.isOpen then (0, c) else if ok then (0, { c with isOpen := true }) else (-1, c)

/-- `close_service`; `ok` says whether `transport_->close()` returns. -/
def closeService (c : ThriftClient) (ok : Bool) : ℤ × ThriftClient :=
  if c.isOpen then if ok then (0, { c with isOpen := false }) else (-1, c) else (0, c)

/-- The same client object, with its transport in another state. -/
structure Same (c c' : ThriftClient) : Prop where
  serial : c'.serial = c.serial
  host : c'.host = c.host
  port : c'.port = c.port
  protocol : c'.protocol = c.protocol

theorem Same.refl (c : ThriftClient) : Same c c := ⟨rfl, rfl, rfl, rfl⟩

theorem Same.trans {c c' c'' : ThriftClient} (h : Same c c') (h' : Same c' c'') : Same c c'' :=
  ⟨h'.serial.trans h.serial, h'.host.trans h.host, h'.port.trans h.port,
    h'.protocol.trans h.protocol⟩

theorem openService_same (c : ThriftClient) (ok : Bool) : Same c (c.openService ok).2 := by
  unfold openService
  split_ifs <;> exact ⟨rfl, rfl, rfl, rfl⟩

theorem closeService_same (c : ThriftClient) (ok : Bool) : Same c (c.closeService ok).2 := by
  unfold closeService
  split_ifs <;> exact ⟨rfl, rfl, rfl, rfl⟩

/-- `open_service` of the client succeeds. -/
def Opens (net : ℕ → Bool) (c : ThriftClient) : Prop := c.isOpen ∨ net c.serial

instance (net : ℕ → Bool) (c : ThriftClient) : Decidable (c.Opens net) :=
  inferInstanceAs (Decidable (_ ∨ _))

theorem openService_eq_zero_iff (c : ThriftClient) (net : ℕ → Bool) :
    (c.openService (net c.serial)).1 = 0 ↔ c.Opens net := by
  unfold openService Opens
  cases hopen : c.isOpen <;> cases hnet : net c.serial <;> simp

end ThriftClient

/-- The clients that `new` has made so far, and the ones that `delete` was
called for. -/
structure Clients where
  made : ℕ
  deleted : List ℕ
  deriving DecidableEq, Repr

namespace Clients

/-- The constructor of `ThriftClient`. -/
def create (h : Clients) (host : List UInt8) (port : ℤ) (tprotocol : List UInt8) :
    ThriftClient × Clients :=
  (⟨h.made, host, port, tprotocol, false⟩, { h with made := h.made + 1 })

def delete (h : Clients) (c : ThriftClient) : Clients :=
  { h with deleted := c.serial :: h.deleted }

/-- The clients of `m` are the ones that exist: every client made is one of
them or deleted, and none is counted twice. -/
def Accounts (h : Clients) (m : Multiset ℕ) : Prop :=
  m + (h.deleted : Multiset ℕ) = Multiset.range h.made

variable {h : Clients} {m : Multiset ℕ}

theorem Accounts.delete {c : ThriftClient} (hm : h.Accounts (c.serial ::ₘ m)) :
    (h.delete c).Accounts m := by
  show m + (c.serial ::ₘ (h.deleted : Multiset ℕ)) = Multiset.range h.made
  rw [Multiset.add_cons, ← Multiset.cons_add]
  exact hm

theorem Accounts.create (hm : h.Accounts m) (host : List UInt8) (port : ℤ)
    (tprotocol : List UInt8) :
    (h.create host port tprotocol).2.Accounts
      ((h.create host port tprotocol).1.serial ::ₘ m) := by
  show h.made ::ₘ m + (h.deleted : Multiset ℕ) = Multiset.range (h.made + 1)
  rw [Multiset.range_succ, Multiset.cons_add, hm]

end Clients

/-! ### The list of idle clients -/

/-- `unsafe_wait_list_t`; `items` run from `_head.next` to `_head.prev`. -/
structure UnsafeWaitList (α : Type*) where
  items : List α
  alive : Bool
  num : ℤ

namespace UnsafeWaitList

variable {α : Type*}

/-- The constructor. -/
def empty : UnsafeWaitList α := ⟨[], true, 0⟩

def len (l : UnsafeWaitList α) : ℤ := l.num

def put (l : UnsafeWaitList α) (a : α) : UnsafeWaitList α :=
  if l.alive then { l with items := a :: l.items, num := l.num + 1 } else l

def tryGet (l : UnsafeWaitList α) : Option α × UnsafeWaitList α :=
  if l.alive then
    match l.items.getLast? with
    | none => (none, l)
    | some a => (some a, { l with items := l.items.dropLast, num := l.num - 1 })
  else (none, l)

/-- The list is in use and knows its length. -/
structure Wf (l : UnsafeWaitList α) : Prop where
  alive : l.alive = true
  len : l.len = l.items.length

theorem wf_empty : (empty : UnsafeWaitList α).Wf := ⟨rfl, rfl⟩

theorem Wf.put_items {l : UnsafeWaitList α} (hl : l.Wf) (a : α) :
    (l.put a).items = a :: l.items := by
  rw [put, if_pos hl.alive]

theorem Wf.put {l : UnsafeWaitList α} (hl : l.Wf) (a : α) : (l.put a).Wf := by
  have hlen : l.num = l.items.length := hl.len
  rw [UnsafeWaitList.put, if_pos hl.alive]
  refine ⟨hl.alive, ?_⟩
  show l.num + 1 = ((a :: l.items).length : ℤ)
  rw [hlen, List.length_cons, Nat.cast_add, Nat.cast_one]

theorem Wf.tryGet_nil {l : UnsafeWaitList α} (hl : l.Wf) (hitems : l.items = []) :
    l.tryGet = (none, l) := by
  rw [tryGet, if_pos hl.alive, hitems]
  rfl

theorem Wf.tryGet_concat {l : UnsafeWaitList α} (hl : l.Wf) {as : List α} {a : α}
    (hitems : l.items = as ++ [a]) :
    l.tryGet = (some a, { l with items := as, num := l.num - 1 }) := by
  rw [tryGet, if_pos hl.alive, hitems, List.getLast?_concat]
  simp

theorem Wf.dropLast {l : UnsafeWaitList α} (hl : l.Wf) {as : List α} {a : α}
    (hitems : l.items = as ++ [a]) :
    ({ l with items := as, num := l.num - 1 } : UnsafeWaitList α).Wf := by
  have hlen : l.num = l.items.length := hl.len
  refine ⟨hl.alive, ?_⟩
  show l.num - 1 = (as.length : ℤ)
  rw [hlen, hitems, List.length_append, List.length_singleton]
  omega

end UnsafeWaitList

/-! ### The pool -/

inductive HealthyStatus
  | healthy
  | notHealthyButCanHaveatry
  | notHealthyAndCannotBeUsedTemp
  | dead
  deriving DecidableEq, Repr

inductive ConnErrorStatus
  | connOk
  | connDrop
  | connReconnect
  deriving DecidableEq, Repr

def MAX_ERROR_CNT_THRESHOLD : ℤ := 10

/-- `ConnPool`, less the three timeouts, which only thrift reads. -/
structure ConnPool where
  host : List UInt8
  port : ℤ
  connNum : ℤ
  tprotocol : List UInt8
  connList : UnsafeWaitList ThriftClient
  errorCnt : ℤ
  lastErrTimestamp : Timeval

namespace ConnPool

def poolSize (p : ConnPool) : ℤ := p.connList.len

def acquireClient (p : ConnPool) : Option ThriftClient × ConnPool :=
  let r := p.connList.tryGet
  (r.1, { p with connList := r.2 })

def releaseClient (p : ConnPool) (c : ThriftClient) (h : Clients) : ConnPool × Clients :=
  if p.connNum < p.connList.len then (p, h.delete c)
  else ({ p with connList := p.connList.put c }, h)

def initOneConn (net : ℕ → Bool) (p : ConnPool) (h : Clients) : ConnPool × Clients :=
  let r := h.create p.host p.port p.tprotocol
  let o := r.1.openService (net r.1.serial)
  if o.1 = 0 then p.releaseClient o.2 r.2 else (p, r.2.delete o.2)

/-- The loop of `init_`; the result is the last length of the list. -/
def initLoop (net : ℕ → Bool) : ℕ → ℤ → ConnPool → Clients → ℤ × ConnPool × Clients
  | 0, connNum, p, h => (connNum, p, h)
  | n + 1, _, p, h =>
    let r := p.initOneConn net h
    initLoop net n r.1.connList.len r.1 r.2

def init (net : ℕ → Bool) (p : ConnPool) (h : Clients) : ℤ × ConnPool × Clients :=
  initLoop net p.connNum.toNat 0 p h

/-- The loop of `clear_`, for at most `n` rounds. -/
def clearLoop : ℕ → ConnPool → Clients → ConnPool × Clients
  | 0, p, h => (p, h)
  | n + 1, p, h =>
    match p.connList.tryGet with
    | (none, _) => (p, h)
    | (some c, l) => clearLoop n { p with connList := l } (h.delete c)

def clear (p : ConnPool) (h : Clients) : ConnPool × Clients :=
  clearLoop p.connList.items.length p h

def refresh (net : ℕ → Bool) (p : ConnPool) (h : Clients) : Bool × ConnPool × Clients :=
  let r := p.clear h
  let i := r.1.init net r.2
  (decide (0 < i.1), i.2)

/-- `is_healthy_`, when `gettimeofday` gives `now`. -/
def isHealthy (p : ConnPool) (now : Timeval) : HealthyStatus :=
  if p.errorCnt = 0 then .healthy
  else if MAX_ERROR_CNT_THRESHOLD < p.errorCnt then .dead
  else
    let tscmp := p.lastErrTimestamp.add ⟨p.errorCnt * p.errorCnt, 0⟩
    if now.sec < tscmp.sec ∨ tscmp.sec = now.sec ∧ now.usec < tscmp.usec then
      .notHealthyAndCannotBeUsedTemp
    else .notHealthyButCanHaveatry

def reportError (p : ConnPool) (now : Timeval) : ConnPool :=
  { p with errorCnt := p.errorCnt + 1, lastErrTimestamp := now }

def clearError (p : ConnPool) (now : Timeval) : ConnPool :=
  if p.isHealthy now = .healthy then p else { p with errorCnt := 0 }

/-- The constructor. -/
def new (host : List UInt8) (port connNum : ℤ) (tprotocol : List UInt8) (net : ℕ → Bool)
    (h : Clients) : ConnPool × Clients :=
  (init net ⟨host, port, connNum, tprotocol, .empty, 0, ⟨0, 0⟩⟩ h).2

/-- The destructor. -/
def destroy (p : ConnPool) (h : Clients) : Clients := (p.clear h).2

/-- The end of both `acquire_thrift_client` functions: a client whose
`open_service` succeeds is the result, any other goes back into the pool after
a second `open_service`. -/
def handOut (net : ℕ → Bool) (retry : Bool) (p : ConnPool) (h : Clients) :
    Option ThriftClient × ConnPool × Clients :=
  match p.acquireClient with
  | (none, p) => (none, p, h)
  | (some c, p) =>
    let o := c.openService (net c.serial)
    if o.1 = 0 then (some o.2, p, h)
    else (none, p.releaseClient (o.2.openService retry).2 h)

/-! ### What the operations leave as it was -/

/-- The serial numbers of the idle clients. -/
def idle (p : ConnPool) : Multiset ℕ := (p.connList.items.map ThriftClient.serial : List ℕ)

/-- The client was created with the host, port and protocol of the pool. -/
structure Owns (p : ConnPool) (c : ThriftClient) : Prop where
  host : c.host = p.host
  port : c.port = p.port
  protocol : c.protocol = p.tprotocol

/-- The idle clients of the pool are its own. -/
def OwnsIdle (p : ConnPool) : Prop := ∀ c ∈ p.connList.items, p.Owns c

/-- A later state of the pool of the same replica. -/
structure Same (p p' : ConnPool) : Prop where
  host : p'.host = p.host
  port : p'.port = p.port
  tprotocol : p'.tprotocol = p.tprotocol

variable {p p' p'' : ConnPool} {h h' h'' : Clients} {c c' : ThriftClient} {m : Multiset ℕ}

theorem Same.refl (p : ConnPool) : Same p p := ⟨rfl, rfl, rfl⟩

theorem Same.symm (hp : Same p p') : Same p' p := ⟨hp.host.symm, hp.port.symm, hp.tprotocol.symm⟩

theorem Same.trans (hp : Same p p') (hp' : Same p' p'') : Same p p'' :=
  ⟨hp'.host.trans hp.host, hp'.port.trans hp.port, hp'.tprotocol.trans hp.tprotocol⟩

theorem Owns.same (hc : p.Owns c) (hp : Same p p') (hcc : c.Same c') : p'.Owns c' :=
  ⟨hcc.host.trans (hc.host.trans hp.host.symm), hcc.port.trans (hc.port.trans hp.port.symm),
    hcc.protocol.trans (hc.protocol.trans hp.tprotocol.symm)⟩

theorem OwnsIdle.mono (hown : p.OwnsIdle) (hp : Same p p')
    (hsub : ∀ c ∈ p'.connList.items, c ∈ p.connList.items) : p'.OwnsIdle :=
  fun c hc => (hown c (hsub c hc)).same hp (ThriftClient.Same.refl c)

/-- What an operation does that takes no client out and brings none in: every
client that is made or taken off the list is idle or deleted afterwards. -/
structure Keeps (p p' : ConnPool) (h h' : Clients) : Prop where
  same : Same p p'
  wf : p'.connList.Wf
  owns : p.OwnsIdle → p'.OwnsIdle
  accounts : ∀ m, h.Accounts (p.idle + m) → h'.Accounts (p'.idle + m)

theorem Keeps.refl (hp : p.connList.Wf) (h : Clients) : Keeps p p h h :=
  ⟨Same.refl p, hp, id, fun _ hm => hm⟩

theorem Keeps.trans (hk : Keeps p p' h h') (hk' : Keeps p' p'' h' h'') : Keeps p p'' h h'' where
  same := hk.same.trans hk'.same
  wf := hk'.wf
  owns hown := hk'.owns (hk.owns hown)
  accounts m hm := hk'.accounts m (hk.accounts m hm)

/-- A change of the error count. -/
theorem Keeps.of_errors (hp : p.connList.Wf) (h : Clients) (n : ℤ) (t : Timeval) :
    Keeps p { p with errorCnt := n, lastErrTimestamp := t } h h :=
  ⟨⟨rfl, rfl, rfl⟩, hp, fun hown => hown.mono ⟨rfl, rfl, rfl⟩ fun _ hc => hc, fun _ hm => hm⟩

theorem keeps_reportError (hp : p.connList.Wf) (h : Clients) (now : Timeval) :
    Keeps p (p.reportError now) h h :=
  Keeps.of_errors hp h _ _

theorem keeps_clearError (hp : p.connList.Wf) (h : Clients) (now : Timeval) :
    Keeps p (p.clearError now) h h := by
  unfold clearError
  split_ifs
  · exact Keeps.refl hp h
  · exact Keeps.of_errors hp h _ _

/-! ### Clients that leave the pool and clients that come in -/

/-- The idle client that is handed out, and the others. -/
theorem acquireClient_cases (hp : p.connList.Wf) :
    (p.connList.items = [] ∧ p.acquireClient = (none, p)) ∨
      ∃ c p', p.acquireClient = (some c, p') ∧ p.connList.items.getLast? = some c ∧
        Same p p' ∧ p'.connList.Wf ∧ p.connList.items = p'.connList.items ++ [c] := by
  rcases List.eq_nil_or_concat' p.connList.items with hnil | ⟨cs, c, hitems⟩
  · left
    refine ⟨hnil, ?_⟩
    rw [acquireClient, hp.tryGet_nil hnil]
  · right
    refine ⟨c, { p with connList := { p.connList with
      items := cs, num := p.connList.num - 1 } }, ?_, ?_, ⟨rfl, rfl, rfl⟩, hp.dropLast hitems,
      hitems⟩
    · rw [acquireClient, hp.tryGet_concat hitems]
    · rw [hitems, List.getLast?_concat]

theorem idle_of_concat (hitems : p.connList.items = p'.connList.items ++ [c]) :
    p.idle = c.serial ::ₘ p'.idle := by
  rw [idle, idle, hitems, List.map_append, List.map_singleton, Multiset.cons_coe,
    Multiset.coe_eq_coe]
  exact List.perm_append_singleton _ _

theorem idle_of_nil (hitems : p.connList.items = []) : p.idle = 0 := by
  rw [idle, hitems]
  rfl

/-- A client that comes back is idle or deleted afterwards. -/
structure Gets (p p' : ConnPool) (c : ThriftClient) (h h' : Clients) : Prop where
  same : Same p p'
  wf : p'.connList.Wf
  owns : p.OwnsIdle → p.Owns c → p'.OwnsIdle
  accounts : ∀ m, h.Accounts (c.serial ::ₘ (p.idle + m)) → h'.Accounts (p'.idle + m)
  settled : c.serial ∈ h'.deleted ∨ c.serial ∈ p'.idle

theorem gets_releaseClient (hp : p.connList.Wf) (c : ThriftClient) (h : Clients) :
    Gets p (p.releaseClient c h).1 c h (p.releaseClient c h).2 := by
  unfold releaseClient
  split_ifs with hfull
  · -- the pool is full
    exact ⟨Same.refl p, hp, fun hown _ => hown, fun m hm => hm.delete, Or.inl List.mem_cons_self⟩
  · have hidle : ({ p with connList := p.connList.put c } : ConnPool).idle
        = c.serial ::ₘ p.idle := by
      show (((p.connList.put c).items.map ThriftClient.serial : List ℕ) : Multiset ℕ) = _
      rw [hp.put_items, List.map_cons]
      rfl
    refine ⟨⟨rfl, rfl, rfl⟩, hp.put c, ?_, ?_, ?_⟩
    · intro hown hc c' hc'
      replace hc' : c' ∈ (p.connList.put c).items := hc'
      rw [hp.put_items] at hc'
      rcases List.mem_cons.mp hc' with rfl | hc'
      · exact hc.same ⟨rfl, rfl, rfl⟩ (ThriftClient.Same.refl c')
      · exact (hown c' hc').same ⟨rfl, rfl, rfl⟩ (ThriftClient.Same.refl c')
    · intro m hm
      rw [hidle, Multiset.cons_add]
      exact hm
    · right
      rw [hidle]
      exact Multiset.mem_cons_self _ _

theorem releaseClient_connNum (p : ConnPool) (c : ThriftClient) (h : Clients) :
    (p.releaseClient c h).1.connNum = p.connNum := by
  unfold releaseClient
  split_ifs <;> rfl

/-- A client that comes back is linked unless the list is too long already. -/
theorem releaseClient_len (hp : p.connList.Wf) (c : ThriftClient) (h : Clients) :
    (p.releaseClient c h).1.connList.len =
      if p.connNum < p.connList.len then p.connList.len else p.connList.len + 1 := by
  unfold releaseClient
  split_ifs with hfull
  · rfl
  · show (p.connList.put c).len = _
    rw [(hp.put c).len, hp.len, hp.put_items, List.length_cons, Nat.cast_succ]

theorem Keeps.gets (hk : Keeps p p' h h) (hg : Gets p' p'' c h h') : Gets p p'' c h h' where
  same := hk.same.trans hg.same
  wf := hg.wf
  owns hown hc := hg.owns (hk.owns hown) (hc.same hk.same (ThriftClient.Same.refl c))
  accounts m hm := by
    refine hg.accounts m ?_
    rw [← Multiset.add_cons] at hm ⊢
    exact hk.accounts _ hm
  settled := hg.settled

theorem Gets.of_same (hg : Gets p p' c' h h') (hc : c.Same c') : Gets p p' c h h' where
  same := hg.same
  wf := hg.wf
  owns hown hc' := hg.owns hown (hc'.same (Same.refl p) hc)
  accounts m hm := hg.accounts m (by rwa [hc.serial])
  settled := by
    rw [← hc.serial]
    exact hg.settled

/-! ### Creating and deleting clients -/

theorem keeps_initOneConn (net : ℕ → Bool) (hp : p.connList.Wf) (h : Clients) :
    Keeps p (p.initOneConn net h).1 h (p.initOneConn net h).2 := by
  unfold initOneConn
  set r := h.create p.host p.port p.tprotocol with hr
  have hsame := r.1.openService_same (net r.1.serial)
  have hmade (m : Multiset ℕ) (hm : h.Accounts (p.idle + m)) :
      r.2.Accounts ((r.1.openService (net r.1.serial)).2.serial ::ₘ (p.idle + m)) := by
    rw [hsame.serial]
    exact hm.create p.host p.port p.tprotocol
  dsimp only
  split_ifs
  · have hget := gets_releaseClient hp (r.1.openService (net r.1.serial)).2 r.2
    exact ⟨hget.same, hget.wf, fun hown => hget.owns hown ⟨hsame.host, hsame.port, hsame.protocol⟩,
      fun m hm => hget.accounts m (hmade m hm)⟩
  · exact ⟨Same.refl p, hp, id, fun m hm => (hmade m hm).delete⟩

theorem keeps_initLoop (net : ℕ → Bool) (n : ℕ) (num : ℤ) (hp : p.connList.Wf) (h : Clients) :
    Keeps p (initLoop net n num p h).2.1 h (initLoop net n num p h).2.2 := by
  induction n generalizing num p h with
  | zero => exact Keeps.refl hp h
  | succ n ih =>
    have hone := keeps_initOneConn net hp h
    exact hone.trans (ih _ hone.wf _)

theorem keeps_init (net : ℕ → Bool) (hp : p.connList.Wf) (h : Clients) :
    Keeps p (p.init net h).2.1 h (p.init net h).2.2 :=
  keeps_initLoop net _ _ hp h

/-- `clear_` deletes every idle client. -/
theorem clearLoop_spec {n : ℕ} (hp : p.connList.Wf) (hn : p.connList.items.length ≤ n) :
    Keeps p (clearLoop n p h).1 h (clearLoop n p h).2 ∧
      (clearLoop n p h).1.connList.items = [] := by
  induction n generalizing p h with
  | zero => exact ⟨Keeps.refl hp h, List.eq_nil_of_length_eq_zero (Nat.le_zero.mp hn)⟩
  | succ n ih =>
    rcases List.eq_nil_or_concat' p.connList.items with hnil | ⟨cs, c, hitems⟩
    · have hstop : clearLoop (n + 1) p h = (p, h) := by
        rw [clearLoop, hp.tryGet_nil hnil]
      rw [hstop]
      exact ⟨Keeps.refl hp h, hnil⟩
    · rw [clearLoop, hp.tryGet_concat hitems]
      set p' : ConnPool := { p with connList := { p.connList with
        items := cs, num := p.connList.num - 1 } } with hp'
      have hone : Keeps p p' h (h.delete c) := by
        refine ⟨⟨rfl, rfl, rfl⟩, hp.dropLast hitems, fun hown => hown.mono ⟨rfl, rfl, rfl⟩ ?_, ?_⟩
        · intro c' hc'
          rw [hitems]
          exact List.mem_append_left _ hc'
        · intro m hm
          have hidle : p.idle = c.serial ::ₘ p'.idle := idle_of_concat hitems
          rw [hidle, Multiset.cons_add] at hm
          exact hm.delete
      have hlen : cs.length ≤ n := by
        rw [hitems, List.length_append, List.length_singleton] at hn
        omega
      obtain ⟨hkeeps, hnil⟩ := ih (h := h.delete c) hone.wf hlen
      exact ⟨hone.trans hkeeps, hnil⟩

theorem keeps_clear (hp : p.connList.Wf) (h : Clients) :
    Keeps p (p.clear h).1 h (p.clear h).2 :=
  (clearLoop_spec hp le_rfl).1

/-- The clients of a pool are deleted with it. -/
theorem accounts_destroy (hp : p.connList.Wf) (hm : h.Accounts (p.idle + m)) :
    (p.destroy h).Accounts m := by
  obtain ⟨hkeeps, hnil⟩ := clearLoop_spec (h := h) hp le_rfl
  have hafter := hkeeps.accounts m hm
  rwa [idle_of_nil hnil, zero_add] at hafter

theorem keeps_refresh (net : ℕ → Bool) (hp : p.connList.Wf) (h : Clients) :
    Keeps p (p.refresh net h).2.1 h (p.refresh net h).2.2 := by
  have hclear := keeps_clear hp h
  exact hclear.trans (keeps_init net hclear.wf _)

/-- A new pool holds the clients that were made for it. -/
theorem new_spec (host : List UInt8) (port connNum : ℤ) (tprotocol : List UInt8)
    (net : ℕ → Bool) (h : Clients) :
    let r := new host port connNum tprotocol net h
    (r.1.host = host ∧ r.1.port = port ∧ r.1.tprotocol = tprotocol) ∧ r.1.connList.Wf ∧
      r.1.OwnsIdle ∧ ∀ m, h.Accounts m → r.2.Accounts (r.1.idle + m) := by
  have hkeeps : Keeps ⟨host, port, connNum, tprotocol, .empty, 0, ⟨0, 0⟩⟩ _ h _ :=
    keeps_init net UnsafeWaitList.wf_empty h
  refine ⟨⟨hkeeps.same.host, hkeeps.same.port, hkeeps.same.tprotocol⟩, hkeeps.wf,
    hkeeps.owns (fun _ hc => nomatch hc), ?_⟩
  intro m hm
  refine hkeeps.accounts m ?_
  show h.Accounts (0 + m)
  rwa [zero_add]

/-! ### Handing out a client -/

/-- What an attempt to take a client does: the client it finds was made for
the pool, and is no longer idle. -/
structure Takes (p p' : ConnPool) (o : Option ThriftClient) (h h' : Clients) : Prop where
  same : Same p p'
  wf : p'.connList.Wf
  owns : p.OwnsIdle → p'.OwnsIdle ∧ ∀ c ∈ o, p.Owns c
  accounts : ∀ m, h.Accounts (p.idle + m) →
    h'.Accounts (p'.idle + ((o.map ThriftClient.serial).toList + m : Multiset ℕ))

theorem Keeps.takes_none (hk : Keeps p p' h h') : Takes p p' none h h' :=
  ⟨hk.same, hk.wf, fun hown => ⟨hk.owns hown, by simp⟩, by simpa using hk.accounts⟩

theorem Keeps.takes {o : Option ThriftClient} (hk : Keeps p p' h h')
    (ht : Takes p' p'' o h' h'') : Takes p p'' o h h'' where
  same := hk.same.trans ht.same
  wf := ht.wf
  owns hown := by
    obtain ⟨hown', hc⟩ := ht.owns (hk.owns hown)
    exact ⟨hown', fun c hco => (hc c hco).same hk.same.symm (ThriftClient.Same.refl c)⟩
  accounts m hm := ht.accounts m (hk.accounts m hm)

theorem takes_handOut (net : ℕ → Bool) (retry : Bool) (hp : p.connList.Wf) (h : Clients) :
    Takes p (p.handOut net retry h).2.1 (p.handOut net retry h).1 h
      (p.handOut net retry h).2.2 := by
  unfold handOut
  rcases acquireClient_cases hp with ⟨-, hget⟩ | ⟨c, p', hget, -, hsame, hp', hitems⟩
  · rw [hget]
    exact (Keeps.refl hp h).takes_none
  · rw [hget]
    dsimp only
    have hopen := c.openService_same (net c.serial)
    have htaken (m : Multiset ℕ) (hm : h.Accounts (p.idle + m)) :
        h.Accounts (c.serial ::ₘ (p'.idle + m)) := by
      rwa [idle_of_concat hitems, Multiset.cons_add] at hm
    have hown' (hown : p.OwnsIdle) : p'.OwnsIdle ∧ p.Owns c := by
      rw [OwnsIdle, hitems, List.forall_mem_append] at hown
      exact ⟨fun c' hc' => (hown.1 c' hc').same hsame (ThriftClient.Same.refl c'),
        hown.2 c List.mem_cons_self⟩
    split_ifs with hzero
    · refine ⟨hsame, hp', fun hown => ⟨(hown' hown).1, ?_⟩, ?_⟩
      · rintro c' ⟨⟩
        exact (hown' hown).2.same (Same.refl p) hopen
      · intro m hm
        have hout := htaken m hm
        rw [← Multiset.add_cons] at hout
        simpa [hopen.serial] using hout
    · -- the client goes back into the pool
      have hagain := hopen.trans ((c.openService (net c.serial)).2.openService_same retry)
      have hback := gets_releaseClient hp'
        ((c.openService (net c.serial)).2.openService retry).2 h
      refine ⟨hsame.trans hback.same, hback.wf, fun hown => ⟨?_, by simp⟩, ?_⟩
      · exact hback.owns (hown' hown).1 ((hown' hown).2.same hsame hagain)
      · intro m hm
        have hin := htaken m hm
        rw [← hagain.serial] at hin
        simpa using hback.accounts m hin

/-- The pool hands out the client that has been idle longest, if its
`open_service` succeeds. -/
theorem handOut_eq_some (net : ℕ → Bool) (retry : Bool) (h : Clients) (hp : p.connList.Wf)
    (hlast : p.connList.items.getLast? = some c) (hopen : c.Opens net) :
    ∃ c', (p.handOut net retry h).1 = some c' := by
  rcases acquireClient_cases hp with ⟨hnil, -⟩ | ⟨c', p', hget, hlast', -⟩
  · rw [hnil] at hlast
    cases hlast
  · obtain rfl : c' = c := Option.some.inj (hlast'.symm.trans hlast)
    refine ⟨(c'.openService (net c'.serial)).2, ?_⟩
    unfold handOut
    rw [hget]
    dsimp only
    rw [if_pos ((c'.openService_eq_zero_iff net).mpr hopen)]

/-! ### Health -/

/-- The pool is HEALTHY, whatever the time is. -/
def Healthy (p : ConnPool) : Prop := ∀ now, p.isHealthy now = .healthy

theorem healthy_iff (p : ConnPool) : p.Healthy ↔ p.errorCnt = 0 := by
  constructor
  · intro hp
    by_contra hne
    have hnow := hp ⟨0, 0⟩
    unfold isHealthy at hnow
    rw [if_neg hne] at hnow
    dsimp only at hnow
    split_ifs at hnow
  · intro hzero now
    unfold isHealthy
    rw [if_pos hzero]

instance (p : ConnPool) : Decidable p.Healthy := decidable_of_iff _ (healthy_iff p).symm

end ConnPool

end Pilot

end Xkim
