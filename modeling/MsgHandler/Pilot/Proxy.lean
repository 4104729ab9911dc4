/-
MsgHandler/Pilot/Proxy.lean

Calls to the peer through pooled clients (`thrift/pilot/thrift_proxy.h`,
`thrift/broker/message_proxy.h`, `thrift/broker/message_broker.cpp`).

`MessageBroker::dispatch` makes at most three attempts.  Each takes a client from
the pools of the service (`MsgHandler/Pilot/Service.lean`), sends the request and
reads the answer; the destructor of the `ThriftProxyHelper` gives the client back
with what has become of it.  The threads of the broker do this side by side, and
the update thread works on the pools meanwhile.

What the network and the peer do is in the events: whether an answer is read, of
which attempt, or what is thrown.  The answers are not numbered, and what keeps the
answer to one call from being taken for the answer to the next is that a client goes
back either with its answer read or with a new connection:

    a client that no call has in hand has no request without an answer (`Kept.quiet`).

Of thrift and of the peer this needs that the answers on a connection come in the
order of the requests, that `close` succeeds, and that no exception is thrown but
those of thrift (`Allowed`).
-/
import MsgHandler.MessageRpc
import MsgHandler.PackHandling
import MsgHandler.Pilot.Release

namespace Xkim

namespace Pilot

open Rpc (MessageResponse)

/-! ### What a call can throw -/

/-- `TTransportException::TTransportExceptionType`, as far as the proxy tells the types
apart. -/
inductive TTransportExceptionType
  | timedOut
  | notOpen
  | other
  deriving DecidableEq, Repr

/-- The exceptions that `INVOKE_AND_RETURN_WITHIN_3_ATTEMPTS` catches. -/
inductive Thrown
  | transport (etype : TTransportExceptionType)
  | application
  | texception
  deriving DecidableEq, Repr

/-- `TZException::ExceptCode`, as far as the proxy uses it. -/
inductive ExceptCode
  | tzeNoservice
  | tzeNetTimeout
  | tzeNetPeerreset
  | tzeNetOther
  | tzeApp
  | tzeOther
  deriving DecidableEq, Repr

/-- What the handlers tell the helper. -/
def Thrown.error : Thrown → ConnErrorStatus
  | transport .notOpen => .connDrop
  | transport .timedOut | transport .other => .connReconnect
  | application => .connOk
  | texception => .connReconnect

/-- What the handlers throw after the last attempt. -/
def Thrown.code : Thrown → ExceptCode
  | transport .timedOut => .tzeNetTimeout
  | transport .notOpen => .tzeNetPeerreset
  | transport .other => .tzeNetOther
  | application => .tzeApp
  | texception => .tzeOther

/-! ### Calls -/

/-- One round of the loop in one call, with the value of `retry` in the body. -/
structure Attempt where
  call : ℕ
  request : Rpc.MessageRequest
  retry : ℕ
  deriving DecidableEq, Repr

/-- How a call of `MessageProxy::dispatch` ends: with a response, which was read as the
answer to an attempt, or with an exception. -/
inductive Ending
  | returned (response : MessageResponse) (answered : Attempt)
  | tzException (insight : ExceptCode)
  | unknown
  deriving DecidableEq, Repr

/-- What `MessageBroker::dispatch` makes of it; it only logs the code of the response and
the insight of the exception. -/
def Ending.result : Ending → ℤ
  | returned _ _ => 0
  | tzException _ | unknown => -1

/-- Where a thread is in the body of the loop: before `acquire_thrift_client()`, in the
`k`-th call of it, with a client, after the request has been sent, and in the
destructor of the helper, after which it goes on with the next round or ends. -/
inductive Phase
  | trying
  | acquiring (k : ℕ)
  | holding (c : ℕ)
  | waiting (c : ℕ)
  | releasing (c : ℕ) (next : Option Ending)
  deriving DecidableEq, Repr

/-- The serial number of the client. -/
def Phase.client : Phase → Option ℕ
  | trying | acquiring _ => none
  | holding c | waiting c | releasing c _ => some c

/-- The client, in the `try` block. -/
def Phase.clientp : Phase → Option ℕ
  | trying | acquiring _ | releasing .. => none
  | holding c | waiting c => some c

/-- A thread in `MessageBroker::dispatch`. -/
structure Call where
  attempt : Attempt
  phase : Phase
  deriving DecidableEq, Repr

/-- After a round without a response: the next one, or after the last the exception. -/
def Attempt.next (a : Attempt) (code : ExceptCode) : Option Ending :=
  if a.retry = 0 then some (.tzException code) else none

theorem Attempt.next_ne_returned (a : Attempt) (code : ExceptCode) (response : MessageResponse)
    (b : Attempt) : a.next code ≠ some (.returned response b) := by
  unfold next
  split_ifs <;> nofun

/-- The request that `MessageBroker::dispatch(msg)` sends. -/
def MessageBroker.request (brokerInstance : ℤ) (msg : IMessage) : Rpc.MessageRequest where
  mshId := brokerInstance
  msgId := (Xkim.MessageBroker.request [] msg).msgId
  msg := (Xkim.MessageBroker.request [] msg).msg
  issetMshId := true
  issetMsgId := true
  issetMsg := true

/-- The client has the same connection after the second part of
`release_thrift_client` as before it. -/
def Release.lasts (r : Release) (out : Outside) : Bool :=
  r.found.isSome && r.client.isOpen &&
    (r.error = .connOk || r.error = .connReconnect && !out.closes)

/-- The threads of the broker and the service they use.  `begun` is the number of the calls
so far, `asked c` are the attempts whose request was sent on the present connection of
the client `c` and whose answer has not been read, and `results` the last attempts of the
calls that have ended. -/
structure Proxies where
  service : Service
  calls : ℕ → Option Call
  begun : ℕ
  asked : ℕ → List Attempt
  results : List (Attempt × Ending)

namespace Proxies

inductive Event
  | network (net : ℕ → Bool)
  | update (task : UpdateTask) (zk : Zk)
  | begin (t : ℕ) (msg : IMessage)
  | acquire (t : ℕ)
  | turn (t : ℕ) (out : Outside)
  | send (t : ℕ)
  | recv (t : ℕ) (answered : Attempt) (response : MessageResponse) (isOpen : Bool)
  | throws (t : ℕ) (e : Thrown) (answered : Option Attempt) (isOpen : Bool)
  | escape (t : ℕ) (isOpen : Bool)
  | putBack (t : ℕ) (out : Outside)

/-- No replica is known yet, and there is no call. -/
def start (path : List UInt8) (numClientsPerReplica : ℤ) : Proxies where
  service := Service.start path numClientsPerReplica
  calls _ := none
  begun := 0
  asked _ := []
  results := []

/-- The thread is at another place of its call, or not in a call any more. -/
def setCall (s : Proxies) (t : ℕ) (y : Option Call) : Proxies :=
  { s with calls := Function.update s.calls t y }

/-- The body of the loop is left. -/
def leave (s : Proxies) (t : ℕ) (a : Attempt) : Option Ending → Proxies
  | none => s.setCall t (some ⟨{ a with retry := a.retry - 1 }, .trying⟩)
  | some e => { s.setCall t none with results := s.results ++ [(a, e)] }

/-- The thread goes on with its call of `acquire_thrift_client()`, or with what it has
returned.  The helper of no client does nothing. -/
def acquired (s : Proxies) (t : ℕ) (a : Attempt) : Option Acquire → Proxies
  | some (.returned (some c)) => s.setCall t (some ⟨a, .holding c.serial⟩)
  | some (.returned none) => s.leave t a (a.next .tzeNoservice)
  | some (.next _) | some (.visit ..) | none => s

/-- The answer to an attempt has been read. -/
def read (s : Proxies) (c : ℕ) (a : Option Attempt) : Proxies :=
  { s with asked := Function.update s.asked c ((s.asked c).diff a.toList) }

/-- The destructor of the helper, as far as the look-up of the pool. -/
def giveBack (H : PilotHost) (s : Proxies) (t : ℕ) (a : Attempt) (c : ℕ) (isOpen : Bool)
    (error : ConnErrorStatus) (next : Option Ending) : Option Proxies :=
  let k := s.service.held.findIdx (·.serial = c)
  (Service.step H s.service (.release k isOpen error)).map fun v =>
    { s.setCall t (some ⟨a, .releasing c next⟩) with service := v }

/-- The rest of the destructor. -/
def putBack (H : PilotHost) (s : Proxies) (t : ℕ) (a : Attempt) (c : ℕ) (out : Outside)
    (next : Option Ending) : Option Proxies :=
  let k := s.service.releasing.findIdx (·.client.serial = c)
  s.service.releasing[k]?.bind fun r =>
    (Service.step H s.service (.finish k out)).map fun v =>
      leave { s with
        service := v
        asked := if r.lasts out then s.asked else Function.update s.asked c [] } t a next

/-- One step of a thread, or of the world outside. -/
def step (H : PilotHost) (brokerInstance : ℤ) (s : Proxies) : Event → Option Proxies
  | .network net =>
    (Service.step H s.service (.network net)).map fun v => { s with service := v }
  | .update task zk =>
    (Service.step H s.service (.update task zk)).map fun v => { s with service := v }
  | .begin t msg =>
    match s.calls t with
    | some _ => none
    | none =>
      let a := ⟨s.begun, MessageBroker.request brokerInstance msg, 2⟩
      some { s.setCall t (some ⟨a, .trying⟩) with begun := s.begun + 1 }
  | .acquire t =>
    match s.calls t with
    | some ⟨a, .trying⟩ =>
      (Service.step H s.service .acquire).map fun v =>
        { s.setCall t (some ⟨a, .acquiring s.service.acquiring.length⟩) with service := v }
    | _ => none
  | .turn t out =>
    match s.calls t with
    | some ⟨a, .acquiring k⟩ =>
      (Service.step H s.service (.turn k out)).map fun v =>
        acquired { s with service := v } t a v.acquiring[k]?
    | _ => none
  | .send t =>
    match s.calls t with
    | some ⟨a, .holding c⟩ =>
      some { s.setCall t (some ⟨a, .waiting c⟩) with
        asked := Function.update s.asked c (s.asked c ++ [a]) }
    | _ => none
  | .recv t answered response isOpen =>
    match s.calls t with
    | some ⟨a, .waiting c⟩ =>
      (s.read c (some answered)).giveBack H t a c isOpen .connOk
        (some (.returned response answered))
    | _ => none
  | .throws t e answered isOpen =>
    (s.calls t).bind fun x => x.phase.clientp.bind fun c =>
      (s.read c answered).giveBack H t x.attempt c isOpen e.error (x.attempt.next e.code)
  -- the helper has been told nothing, and `catch (...)` in `MessageBroker::dispatch` is next
  | .escape t isOpen =>
    (s.calls t).bind fun x => x.phase.clientp.bind fun c =>
      s.giveBack H t x.attempt c isOpen .connOk (some .unknown)
  | .putBack t out =>
    match s.calls t with
    | some ⟨a, .releasing c next⟩ => s.putBack H t a c out next
    | _ => none

/-! ### What is assumed -/

/-- The first answer that is due on the connection that the thread uses. -/
def due (s : Proxies) (t : ℕ) : Option Attempt :=
  (s.calls t).bind fun x => x.phase.clientp.bind fun c => (s.asked c).head?

/-- The answers on a connection are read in the order of the requests, a
`TApplicationException` is thrown for an answer that has been read, no exception is
thrown that is not one of thrift's, and `close` succeeds; and clients go home. -/
def Allowed (H : PilotHost) (proto : List UInt8 → ℤ → List UInt8) (s : Proxies) : Event → Prop
  | .update task zk => s.service.Allowed H proto (.update task zk)
  | .recv t a _ _ => s.due t = some a
  | .throws t e a _ => e = .application → a ≠ none ∧ s.due t = a
  | .escape _ _ => False
  | .putBack _ out => out.closes = true
  | _ => True

instance (H : PilotHost) (proto : List UInt8 → ℤ → List UInt8) (s : Proxies) :
    ∀ e, Decidable (Allowed H proto s e)
  | .update task zk => inferInstanceAs (Decidable (s.service.Allowed H proto (.update task zk)))
  | .recv t a _ _ => inferInstanceAs (Decidable (s.due t = some a))
  | .throws t e a _ => inferInstanceAs (Decidable (e = .application → a ≠ none ∧ s.due t = a))
  | .escape _ _ => isFalse id
  | .putBack _ out => inferInstanceAs (Decidable (out.closes = true))
  | .network _ | .begin .. | .acquire _ | .turn .. | .send _ => isTrue trivial

end Proxies

/-! ### The service, for a thread that uses it -/

/-- What a thread has for itself alone. -/
inductive Claim
  | call (k : ℕ)
  | client (c : ℕ)
  deriving DecidableEq

def Phase.claim : Phase → Option Claim
  | trying => none
  | acquiring k => some (.call k)
  | holding c | waiting c | releasing c _ => some (.client c)

/-- A step leaves alone what the thread has not claimed. -/
structure Frame (claim : Option Claim) (s v : Service) (asked asked' : ℕ → List Attempt) :
    Prop where
  acquiring : ∀ k a, claim ≠ some (.call k) → s.acquiring[k]? = some a → v.acquiring[k]? = some a
  held : ∀ c ∈ s.held, claim ≠ some (.client c.serial) → c ∈ v.held
  releasing : ∀ r ∈ s.releasing, claim ≠ some (.client r.client.serial) → r ∈ v.releasing
  asked : ∀ c, claim ≠ some (.client c) → asked' c = asked c

/-- A response that is returned is the answer to a request of the same call. -/
def Ending.Right (a : Attempt) (e : Ending) : Prop :=
  ∀ response b, e = .returned response b → b = a

/-- What the service has for a call. -/
def Call.Placed (s : Service) (asked : ℕ → List Attempt) (x : Call) : Prop :=
  match x.phase with
  | .trying => True
  | .acquiring k => ∃ a, s.acquiring[k]? = some a ∧ a.running = true
  | .holding c => (∃ d ∈ s.held, d.serial = c) ∧ asked c = []
  | .waiting c => (∃ d ∈ s.held, d.serial = c) ∧ asked c = [x.attempt]
  | .releasing c next => (∃ r ∈ s.releasing, r.client.serial = c ∧
      (r.error = .connOk → asked c = [])) ∧ ∀ e ∈ next, e.Right x.attempt

section

variable {H : PilotHost} {proto : List UInt8 → ℤ → List UInt8} {s v : Service} {k t c : ℕ}
  {asked asked' : ℕ → List Attempt} {claim : Option Claim} {x y : Call}

theorem Frame.refl (claim : Option Claim) (s : Service) (asked : ℕ → List Attempt) :
    Frame claim s s asked asked :=
  ⟨fun _ _ _ h => h, fun _ h _ => h, fun _ h _ => h, fun _ _ => rfl⟩

theorem Frame.update (h : Frame claim s v asked asked) (hc : claim = some (.client c))
    (as : List Attempt) : Frame claim s v asked (Function.update asked c as) := by
  refine ⟨h.acquiring, h.held, h.releasing, fun d hd => ?_⟩
  exact Function.update_of_ne (fun hdc => hd (by rw [hc, hdc])) _ _

/-- A call keeps its place when another thread moves. -/
theorem Call.Placed.frame (h : x.Placed s asked) (hf : Frame claim s v asked asked')
    (hx : x.phase.claim ≠ none → claim ≠ x.phase.claim) : x.Placed v asked' := by
  obtain ⟨a, p⟩ := x
  cases p with
  | trying => trivial
  | acquiring k =>
    obtain ⟨b, hb, hrun⟩ := h
    exact ⟨b, hf.acquiring k b (hx nofun) hb, hrun⟩
  | holding c | waiting c =>
    obtain ⟨⟨d, hd, rfl⟩, has⟩ := h
    exact ⟨⟨d, hf.held d hd (hx nofun), rfl⟩, (hf.asked _ (hx nofun)).trans has⟩
  | releasing c next =>
    obtain ⟨⟨r, hr, rfl, has⟩, hnext⟩ := h
    exact ⟨⟨r, hf.releasing r hr (hx nofun), rfl,
      fun hok => (hf.asked _ (hx nofun)).trans (has hok)⟩, hnext⟩

/-- The client that a call has is in use, or on its way back. -/
theorem Call.Placed.mem (h : x.Placed s asked) (hc : x.phase.claim = some (.client c)) :
    c ∈ s.held.map ThriftClient.serial ++ s.releasing.map (·.client.serial) := by
  obtain ⟨a, p⟩ := x
  cases p with
  | trying | acquiring => cases hc
  | holding | waiting =>
    cases hc
    obtain ⟨⟨d, hd, rfl⟩, -⟩ := h
    exact List.mem_append_left _ (List.mem_map_of_mem hd)
  | releasing =>
    cases hc
    obtain ⟨⟨r, hr, rfl, -⟩, -⟩ := h
    exact List.mem_append_right _ (List.mem_map_of_mem hr)

namespace Service

/-- A client is in one place only. -/
theorem Inv.census_nodup (hs : Inv proto s) : s.census.Nodup := by
  have hle : s.census ≤ Multiset.range s.clients.made := by
    rw [← hs.accounts]
    exact Multiset.le_add_right _ _
  exact Multiset.nodup_of_le hle (Multiset.nodup_range _)

theorem Inv.places_nodup (hs : Inv proto s) :
    (s.held.map ThriftClient.serial ++ s.releasing.map (·.client.serial)).Nodup := by
  have hnodup := (Multiset.nodup_add.mp hs.census_nodup).2.1
  rwa [Multiset.coe_add, Multiset.coe_nodup] at hnodup

theorem Inv.not_idle (hs : Inv proto s)
    (hc : c ∈ s.held.map ThriftClient.serial ++ s.releasing.map (·.client.serial)) :
    c ∉ idleOf s.vec := by
  intro hidle
  refine Multiset.disjoint_left.mp (Multiset.nodup_add.mp hs.census_nodup).2.2 hidle ?_
  rwa [Multiset.coe_add, Multiset.mem_coe]

/-- The world outside moves nothing that a thread has. -/
theorem step_outside {e : Pilot.Event} (h : step H s e = some v)
    (he : (∃ net, e = .network net) ∨ ∃ task zk, e = .update task zk) (claim : Option Claim)
    (asked : ℕ → List Attempt) : Frame claim s v asked asked := by
  obtain ⟨-, hh⟩ := step_happens h
  rcases he with ⟨net, rfl⟩ | ⟨task, zk, rfl⟩ <;> cases hh <;>
    exact ⟨fun _ _ _ h => h, fun _ h _ => h, fun _ h _ => h, fun _ _ => rfl⟩

theorem step_acquire (h : step H s .acquire = some v) (claim : Option Claim)
    (asked : ℕ → List Attempt) :
    v.acquiring = s.acquiring ++ [.next 0] ∧ Frame claim s v asked asked := by
  obtain ⟨-, hh⟩ := step_happens h
  cases hh
  refine ⟨rfl, ?_, fun _ h _ => h, fun _ h _ => h, fun _ _ => rfl⟩
  intro k a _ ha
  exact (List.getElem?_append_left (List.getElem?_eq_some_iff.mp ha).1).trans ha

/-- What a step of `acquire_thrift_client()` leaves: the call goes on, or it has returned
no client, or one that no other call has. -/
theorem step_turn {out : Outside} (h : step H s (.turn k out) = some v) (hv : Inv proto v)
    (hk : ∃ a, s.acquiring[k]? = some a ∧ a.running = true) (asked : ℕ → List Attempt) :
    Frame (some (.call k)) s v asked asked ∧ ∃ b, v.acquiring[k]? = some b ∧
      ∀ c, b = .returned (some c) → c ∈ v.held ∧
        c.serial ∉ s.held.map ThriftClient.serial ++ s.releasing.map (·.client.serial) := by
  obtain ⟨a, ha, hrun⟩ := hk
  have hlt := (List.getElem?_eq_some_iff.mp ha).1
  have hset (b : Acquire) (j : ℕ) (a' : Acquire) (hj : some (Claim.call k) ≠ some (.call j))
      (ha' : s.acquiring[j]? = some a') : (s.acquiring.set k b)[j]? = some a' := by
    rw [List.getElem?_set_ne (fun hkj => hj (by rw [hkj]))]
    exact ha'
  have hfresh := hv.places_nodup
  have hrunning := hv.running
  obtain ⟨-, hh⟩ := step_happens h
  cases hh with
  | turn _ ha' =>
    obtain rfl := Option.some.inj (ha.symm.trans ha')
    cases a with
    | returned result => cases hrun
    | next i =>
      rw [Service.turn]
      split_ifs
      · exact ⟨⟨hset _, fun _ h _ => h, fun _ h _ => h, fun _ _ => rfl⟩, _,
          List.getElem?_set_self hlt, by rintro _ ⟨⟩⟩
      · exact ⟨⟨hset _, fun _ h _ => h, fun _ h _ => h, fun _ _ => rfl⟩, _,
          List.getElem?_set_self hlt, by rintro _ ⟨⟩⟩
    | visit i hostIdx =>
      rw [Service.turn] at hfresh hrunning ⊢
      rcases htry : s.pooled.tryReplica s.net out hostIdx s.clients with - | ⟨- | c, pooled, h'⟩
      · rw [htry] at hrunning
        cases hrunning
      · exact ⟨⟨hset _, fun _ h _ => h, fun _ h _ => h, fun _ _ => rfl⟩, _,
          List.getElem?_set_self hlt, by rintro _ ⟨⟩⟩
      · rw [htry] at hfresh
        refine ⟨⟨hset _, fun _ h _ => List.mem_append_left _ h, fun _ h _ => h, fun _ _ => rfl⟩, _,
          List.getElem?_set_self hlt, ?_⟩
        rintro _ ⟨⟩
        refine ⟨List.mem_append_right _ List.mem_cons_self, fun hmem => ?_⟩
        -- the client is the last that is held now, and no serial number is there twice
        dsimp only at hfresh
        rw [List.map_append, List.append_assoc, List.map_singleton, List.singleton_append,
          List.nodup_middle] at hfresh
        exact (List.nodup_cons.mp hfresh).1 hmem

theorem mem_eraseIdx_of_ne {α : Type} {f : α → ℕ} {l : List α} {a b : α}
    (ha : l[k]? = some a) (hb : b ∈ l) (hne : f a ≠ f b) : b ∈ l.eraseIdx k := by
  obtain ⟨i, hi⟩ := List.getElem?_of_mem hb
  refine List.mem_eraseIdx_iff_getElem?.mpr ⟨i, ?_, hi⟩
  rintro rfl
  obtain rfl := Option.some.inj (ha.symm.trans hi)
  exact hne rfl

theorem getElem?_findIdx {α : Type} {f : α → ℕ} {l : List α} {a : α}
    (h : l[l.findIdx (f · = c)]? = some a) : f a = c := by
  obtain ⟨hlt, rfl⟩ := List.getElem?_eq_some_iff.mp h
  exact of_decide_eq_true (List.findIdx_getElem (w := hlt))

theorem step_release {isOpen : Bool} {error : ConnErrorStatus}
    (h : step H s (.release (s.held.findIdx (·.serial = c)) isOpen error) = some v)
    (asked : ℕ → List Attempt) :
    Frame (some (.client c)) s v asked asked ∧
      ∃ r ∈ v.releasing, r.client.serial = c ∧ r.error = error := by
  obtain ⟨-, hh⟩ := step_happens h
  cases hh with
  | release _ _ hc =>
    rename_i d
    have hd := getElem?_findIdx (f := ThriftClient.serial) hc
    refine ⟨⟨fun _ _ _ h => h, fun e he hne => ?_, fun _ h _ => List.mem_append_left _ h,
      fun _ _ => rfl⟩, _, List.mem_append_right _ List.mem_cons_self, hd, rfl⟩
    refine mem_eraseIdx_of_ne (f := ThriftClient.serial) hc he fun heq => ?_
    rw [← hd, heq] at hne
    exact hne rfl

theorem step_finish {out : Outside} {r : Release}
    (hr : s.releasing[s.releasing.findIdx (·.client.serial = c)]? = some r)
    (h : step H s (.finish (s.releasing.findIdx (·.client.serial = c)) out) = some v)
    (asked : ℕ → List Attempt) :
    r.client.serial = c ∧ Frame (some (.client c)) s v asked asked := by
  have hserial := getElem?_findIdx (f := fun r : Release => r.client.serial) hr
  refine ⟨hserial, ?_⟩
  have hrest (r' : Release) (hr' : r' ∈ s.releasing)
      (hne : some (Claim.client c) ≠ some (.client r'.client.serial)) :
      r' ∈ s.releasing.eraseIdx (s.releasing.findIdx (·.client.serial = c)) := by
    refine mem_eraseIdx_of_ne (f := fun r : Release => r.client.serial) hr hr' fun heq => ?_
    rw [← hserial, heq] at hne
    exact hne rfl
  obtain ⟨-, hh⟩ := step_happens h
  cases hh with
  | finish _ hr' =>
    unfold Service.finish
    dsimp only
    split
    · exact ⟨fun _ _ _ h => h, fun _ h _ => h, hrest, fun _ _ => rfl⟩
    · split <;> exact ⟨fun _ _ _ h => h, fun _ h _ => h, hrest, fun _ _ => rfl⟩

end Service

end

namespace Proxies

section

variable {H : PilotHost} {proto : List UInt8 → ℤ → List UInt8} {g : ℤ} {s s' : Proxies}
  {v : Service} {asked' : ℕ → List Attempt} {t c : ℕ} {a : Attempt} {x : Call} {y : Option Call}
  {next : Option Ending} {out : Outside}

/-! ### Who has which client -/

/-- What the thread has for itself alone. -/
def claim (s : Proxies) (t : ℕ) : Option Claim := (s.calls t).bind fun x => x.phase.claim

theorem claim_eq (hx : s.calls t = some x) : s.claim t = x.phase.claim := by
  rw [claim, hx]
  rfl

/-- Every call has its client for itself, and a client that no call has in hand has no
request without an answer. -/
structure Kept (proto : List UInt8 → ℤ → List UInt8) (s : Proxies) : Prop where
  service : s.service.Inv proto
  placed : ∀ t x, s.calls t = some x → x.Placed s.service s.asked
  apart : ∀ t t' x, s.calls t = some x → t' ≠ t → x.phase.claim ≠ none →
    s.claim t' ≠ x.phase.claim
  quiet : ∀ c, (∀ t, s.claim t ≠ some (.client c)) → s.asked c = []
  right : ∀ o ∈ s.results, o.2.Right o.1

theorem kept_start (path : List UInt8) (num : ℤ) : Kept proto (start path num) where
  service := Service.inv_start path num
  placed _ _ hx := nomatch hx
  apart _ _ _ hx := nomatch hx
  quiet _ _ := rfl
  right _ ho := nomatch ho

/-- **One thread moves.**  What it claims was its own before, or nobody's, and a client that
it lets go has no request without an answer. -/
theorem Kept.moved (h : Kept proto s) (hservice : s'.service.Inv proto)
    (hframe : Frame (s.claim t) s.service s'.service s.asked s'.asked)
    (hcalls : s'.calls = Function.update s.calls t y)
    (hplaced : ∀ z ∈ y, z.Placed s'.service s'.asked)
    (hapart : s'.claim t = s.claim t ∨ ∀ t' x', s.calls t' = some x' → x'.phase.claim ≠ none →
      s'.claim t ≠ x'.phase.claim)
    (hquiet : ∀ c, s.claim t = some (.client c) → s'.claim t ≠ some (.client c) →
      s'.asked c = [])
    (hright : ∀ o ∈ s'.results, o ∈ s.results ∨ o.2.Right o.1) : Kept proto s' := by
  have hself : s'.calls t = y := by rw [hcalls, Function.update_self]
  have hother {t' : ℕ} (ht : t' ≠ t) : s'.calls t' = s.calls t' := by
    rw [hcalls, Function.update_of_ne ht]
  have hclaim {t' : ℕ} (ht : t' ≠ t) : s'.claim t' = s.claim t' := by
    rw [claim, claim, hother ht]
  -- what the thread claims now belongs to no other
  have hnew {t' : ℕ} {x' : Call} (hx' : s.calls t' = some x') (ht : t' ≠ t)
      (hne : x'.phase.claim ≠ none) : s'.claim t ≠ x'.phase.claim := by
    rcases hapart with hsame | hfresh
    · rw [hsame]
      exact h.apart t' t x' hx' ht.symm hne
    · exact hfresh t' x' hx' hne
  refine ⟨hservice, ?_, ?_, ?_, fun o ho => (hright o ho).elim (h.right o) id⟩
  · intro t' x' hx'
    rcases eq_or_ne t' t with rfl | ht
    · exact hplaced x' (hself.symm.trans hx')
    · rw [hother ht] at hx'
      exact (h.placed t' x' hx').frame hframe (h.apart t' t x' hx' ht.symm)
  · intro t₁ t₂ x₁ hx₁ ht hne
    rcases eq_or_ne t₁ t with rfl | ht₁
    · rw [hclaim ht]
      intro heq
      obtain ⟨x₂, hx₂, hclaim₂⟩ := Option.bind_eq_some_iff.mp
        (heq.trans (Option.some_get (Option.isSome_iff_ne_none.mpr hne)).symm)
      refine hnew hx₂ ht (by rw [hclaim₂]; nofun) ?_
      rw [claim_eq hx₁, ← heq, claim_eq hx₂]
    · rw [hother ht₁] at hx₁
      rcases eq_or_ne t₂ t with rfl | ht₂
      · exact hnew hx₁ ht₁ hne
      · rw [hclaim ht₂]
        exact h.apart t₁ t₂ x₁ hx₁ ht hne
  · intro c hc
    by_cases hold : s.claim t = some (.client c)
    · exact hquiet c hold (hc t)
    · rw [hframe.asked c hold]
      refine h.quiet c fun t' => ?_
      rcases eq_or_ne t' t with rfl | ht
      · exact hold
      · rw [← hclaim ht]
        exact hc t'

theorem claim_setCall (s : Proxies) (t : ℕ) (x : Call) :
    (s.setCall t (some x)).claim t = x.phase.claim :=
  claim_eq (Function.update_self ..)

/-- The body of the loop is left with no client, or with one that has its answers. -/
theorem Kept.leave (h : Kept proto s) (hv : v.Inv proto)
    (hframe : Frame (s.claim t) s.service v s.asked asked')
    (hquiet : ∀ c, s.claim t = some (.client c) → asked' c = []) (a : Attempt)
    (hnext : ∀ e ∈ next, e.Right a) :
    Kept proto (leave { s with service := v, asked := asked' } t a next) := by
  cases next with
  | none =>
    refine h.moved hv hframe rfl ?_ (.inr ?_) (fun c hc _ => hquiet c hc) fun o ho => .inl ho
    · rintro _ ⟨⟩
      trivial
    · intro t' x' _ hne heq
      exact hne (heq.symm.trans (claim_setCall ..))
  | some e =>
    refine h.moved hv hframe rfl ?_ (.inr ?_) (fun c hc _ => hquiet c hc) fun o ho => ?_
    · intro _ hz
      cases hz
    · intro t' x' _ hne heq
      refine hne (heq.symm.trans ?_)
      show (Function.update s.calls t none t).bind _ = none
      rw [Function.update_self]
      rfl
    · refine (List.mem_append.mp ho).imp_right fun ho => ?_
      rw [List.mem_singleton.mp ho]
      exact hnext e rfl

/-- The client is given back with its answers read, or to be connected again. -/
theorem Kept.giveBack (h : Kept proto s) (hclaim : s.claim t = some (.client c))
    {as : List Attempt} {isOpen : Bool} {error : ConnErrorStatus} (has : error = .connOk → as = [])
    (hnext : ∀ e ∈ next, e.Right a)
    (hs : ({ s with asked := Function.update s.asked c as } : Proxies).giveBack H t a c isOpen
      error next = some s') : Kept proto s' := by
  obtain ⟨v, hv, rfl⟩ := Option.map_eq_some_iff.mp hs
  obtain ⟨hframe, r, hr, hserial, herror⟩ := Service.step_release hv s.asked
  rw [← hclaim] at hframe
  have hsame := (claim_setCall s t ⟨a, .releasing c next⟩).trans hclaim.symm
  refine h.moved (h.service.step (by trivial) hv) (hframe.update hclaim as) rfl ?_ (.inl hsame) ?_
    fun o ho => .inl ho
  · rintro _ ⟨⟩
    refine ⟨⟨r, hr, hserial, fun hok => ?_⟩, hnext⟩
    show Function.update s.asked c as c = []
    rw [Function.update_self, has (herror.symm.trans hok)]
  · intro d hd hne
    exact absurd (hsame.trans hd) hne

theorem Kept.putBack (h : Kept proto s) (hx : s.calls t = some ⟨a, .releasing c next⟩)
    (hcloses : out.closes = true) (hs : s.putBack H t a c out next = some s') : Kept proto s' := by
  obtain ⟨r, hr, hs⟩ := Option.bind_eq_some_iff.mp hs
  obtain ⟨v, hv, rfl⟩ := Option.map_eq_some_iff.mp hs
  obtain ⟨hserial, hframe⟩ := Service.step_finish hr hv s.asked
  have hclaim : s.claim t = some (.client c) := claim_eq hx
  rw [← hclaim] at hframe
  obtain ⟨⟨r', hr', hserial', has⟩, hnext⟩ := h.placed t _ hx
  -- the release that the place of the thread speaks of is the one that was found
  obtain rfl : r = r' :=
    List.inj_on_of_nodup_map (List.nodup_append.mp h.service.places_nodup).2.1
      (List.mem_of_getElem? hr) hr' (hserial.trans hserial'.symm)
  refine h.leave (h.service.step (by trivial) hv) ?_ ?_ a hnext
  · split_ifs
    · exact hframe
    · exact hframe.update hclaim []
  · intro d hd
    obtain rfl : c = d := by
      rw [hclaim] at hd
      cases hd
      rfl
    split_ifs with hlasts
    · refine has ?_
      unfold Release.lasts at hlasts
      rw [hcloses] at hlasts
      simpa using (Bool.and_eq_true_iff.mp hlasts).2
    · exact Function.update_self ..

theorem Kept.turn (h : Kept proto s) {k : ℕ} (hx : s.calls t = some ⟨a, .acquiring k⟩)
    (hv : Service.step H s.service (.turn k out) = some v) :
    Kept proto (acquired { s with service := v } t a v.acquiring[k]?) := by
  have hinv : v.Inv proto := h.service.step (by trivial) hv
  obtain ⟨hframe, b, hb, hnew⟩ := Service.step_turn hv hinv (h.placed t _ hx) s.asked
  have hclaim : s.claim t = some (.call k) := claim_eq hx
  rw [← hclaim] at hframe
  have hquiet (c : ℕ) (hc : s.claim t = some (.client c)) : s.asked c = [] := by
    rw [hclaim] at hc
    cases hc
  -- the call of `acquire_thrift_client()` has not returned
  have hgoes (hrun : b.running = true) : Kept proto { s with service := v } := by
    refine h.moved (y := some ⟨a, .acquiring k⟩) hinv hframe ?_ ?_ (.inl rfl)
      (fun c hc _ => hquiet c hc) fun o ho => .inl ho
    · rw [← hx, Function.update_eq_self]
    · rintro _ ⟨⟩
      exact ⟨b, hb, hrun⟩
  rw [hb]
  cases b with
  | next i => exact hgoes rfl
  | visit i idx => exact hgoes rfl
  | returned result =>
    cases result with
    | none =>
      refine h.leave hinv hframe hquiet a fun e he response b hret => ?_
      exact absurd (he.trans (congrArg some hret)) (a.next_ne_returned _ response b)
    | some c =>
      obtain ⟨hheld, hfresh⟩ := hnew c rfl
      refine h.moved hinv hframe rfl ?_ (.inr ?_) (fun c hc _ => hquiet c hc) fun o ho => .inl ho
      · rintro _ ⟨⟩
        refine ⟨⟨c, hheld, rfl⟩, h.quiet _ fun t' hc => ?_⟩
        obtain ⟨x', hx', hc⟩ := Option.bind_eq_some_iff.mp hc
        exact hfresh ((h.placed t' x' hx').mem hc)
      · intro t' x' hx' _ heq
        exact hfresh ((h.placed t' x' hx').mem (heq.symm.trans (claim_setCall ..)))

theorem Kept.acquire (h : Kept proto s) (hx : s.calls t = some ⟨a, .trying⟩)
    (hv : Service.step H s.service .acquire = some v) :
    Kept proto
      { s.setCall t (some ⟨a, .acquiring s.service.acquiring.length⟩) with service := v } := by
  obtain ⟨hacquiring, hframe⟩ := Service.step_acquire hv (s.claim t) s.asked
  have hclaim : s.claim t = none := claim_eq hx
  refine h.moved (h.service.step (by trivial) hv) hframe rfl ?_ (.inr ?_) ?_ fun o ho => .inl ho
  · rintro _ ⟨⟩
    refine ⟨.next 0, ?_, rfl⟩
    show v.acquiring[_]? = _
    rw [hacquiring, List.getElem?_concat_length]
  · intro t' x' hx' _ heq
    -- a call of another thread has a number that was given before
    obtain ⟨b, p⟩ := x'
    replace heq := (claim_setCall s t ⟨a, .acquiring s.service.acquiring.length⟩).symm.trans heq
    cases p with
    | trying | holding | waiting | releasing => cases heq
    | acquiring k =>
      cases heq
      obtain ⟨d, hd, -⟩ := h.placed t' _ hx'
      exact absurd (List.getElem?_eq_some_iff.mp hd).1 (lt_irrefl _)
  · intro c hc
    rw [hclaim] at hc
    cases hc

theorem Kept.send (h : Kept proto s) (hx : s.calls t = some ⟨a, .holding c⟩) :
    Kept proto
      { s.setCall t (some ⟨a, .waiting c⟩) with
        asked := Function.update s.asked c (s.asked c ++ [a]) } := by
  have hclaim : s.claim t = some (.client c) := claim_eq hx
  have hsame := (claim_setCall s t ⟨a, .waiting c⟩).trans hclaim.symm
  obtain ⟨hheld, hasked⟩ := h.placed t _ hx
  refine h.moved h.service ((Frame.refl ..).update hclaim _) rfl ?_ (.inl hsame) ?_
    fun o ho => .inl ho
  · rintro _ ⟨⟩
    refine ⟨hheld, ?_⟩
    show Function.update s.asked c (s.asked c ++ [a]) c = [a]
    rw [Function.update_self, hasked, List.nil_append]
  · intro d hd hne
    exact absurd (hsame.trans hd) hne

/-- The answer that is due on the connection of a call is its own. -/
theorem Kept.due_eq (h : Kept proto s) (hx : s.calls t = some x) (hp : x.phase.clientp = some c)
    {b : Attempt} (hb : s.due t = some b) :
    b = x.attempt ∧ s.asked c = [x.attempt] := by
  rw [due, hx, Option.bind_some, hp, Option.bind_some] at hb
  have hplaced := h.placed t x hx
  obtain ⟨a, p⟩ := x
  cases p with
  | trying | acquiring | releasing => cases hp
  | holding d =>
    cases hp
    rw [hplaced.2] at hb
    cases hb
  | waiting d =>
    cases hp
    rw [hplaced.2] at hb
    exact ⟨(Option.some.inj hb).symm, hplaced.2⟩

theorem claim_of_clientp (hx : s.calls t = some x) (hp : x.phase.clientp = some c) :
    s.claim t = some (.client c) := by
  rw [claim_eq hx]
  obtain ⟨a, p⟩ := x
  cases p with
  | trying | acquiring | releasing => cases hp
  | holding | waiting =>
    cases hp
    rfl

theorem Kept.throws (h : Kept proto s) {e : Thrown} {answered : Option Attempt} {isOpen : Bool}
    (hx : s.calls t = some x) (hp : x.phase.clientp = some c)
    (he : e = .application → answered ≠ none ∧ s.due t = answered)
    (hs : (s.read c answered).giveBack H t x.attempt c isOpen e.error (x.attempt.next e.code) =
      some s') : Kept proto s' := by
  refine h.giveBack (claim_of_clientp hx hp) (fun hok => ?_) (fun e he response b hret => ?_) hs
  · -- only an exception of the peer leaves the connection as it is
    have happ : e = .application := by
      cases e with
      | transport etype => cases etype <;> cases hok
      | application => rfl
      | texception => cases hok
    obtain ⟨hsome, hdue⟩ := he happ
    obtain ⟨b, rfl⟩ := Option.ne_none_iff_exists'.mp hsome
    obtain ⟨rfl, hasked⟩ := h.due_eq hx hp hdue
    rw [hasked]
    simp
  · exact absurd (he.trans (congrArg some hret)) (x.attempt.next_ne_returned _ response b)

theorem Kept.outside (h : Kept proto s) {e : Pilot.Event}
    (he : (∃ net, e = .network net) ∨ ∃ task zk, e = .update task zk)
    (hallowed : s.service.Allowed H proto e) (hv : Service.step H s.service e = some v) :
    Kept proto { s with service := v } :=
  ⟨h.service.step hallowed hv, fun t x hx => (h.placed t x hx).frame
    (Service.step_outside hv he none s.asked) fun hne => hne.symm, h.apart, h.quiet, h.right⟩

theorem Kept.step {e : Event} (h : Kept proto s) (he : Allowed H proto s e)
    (hs : step H g s e = some s') : Kept proto s' := by
  cases e with
  | network net =>
    obtain ⟨v, hv, rfl⟩ := Option.map_eq_some_iff.mp hs
    exact h.outside (.inl ⟨_, rfl⟩) (by trivial) hv
  | update task zk =>
    obtain ⟨v, hv, rfl⟩ := Option.map_eq_some_iff.mp hs
    exact h.outside (.inr ⟨_, _, rfl⟩) he hv
  | begin t msg =>
    rw [Proxies.step] at hs
    split at hs
    · cases hs
    · rename_i hx
      obtain rfl := Option.some.inj hs
      have hclaim : s.claim t = none := by
        rw [claim, hx]
        rfl
      refine h.moved h.service (Frame.refl ..) rfl ?_ (.inl ?_) ?_ fun o ho => .inl ho
      · rintro _ ⟨⟩
        trivial
      · exact (claim_setCall ..).trans hclaim.symm
      · intro c hc
        rw [hclaim] at hc
        cases hc
  | acquire t =>
    rw [Proxies.step] at hs
    split at hs
    · obtain ⟨v, hv, rfl⟩ := Option.map_eq_some_iff.mp hs
      exact h.acquire ‹_› hv
    · cases hs
  | turn t out =>
    rw [Proxies.step] at hs
    split at hs
    · obtain ⟨v, hv, rfl⟩ := Option.map_eq_some_iff.mp hs
      exact h.turn ‹_› hv
    · cases hs
  | send t =>
    rw [Proxies.step] at hs
    split at hs
    · obtain rfl := Option.some.inj hs
      exact h.send ‹_›
    · cases hs
  | recv t answered response isOpen =>
    rw [Proxies.step] at hs
    split at hs
    · rename_i a c hx
      obtain ⟨rfl, hasked⟩ := h.due_eq (c := c) hx rfl he
      refine h.giveBack (claim_eq hx) (fun _ => ?_) ?_ hs
      · rw [hasked]
        simp
      · rintro _ ⟨⟩ _ _ ⟨⟩
        rfl
    · cases hs
  | throws t e answered isOpen =>
    obtain ⟨x, hx, hs⟩ := Option.bind_eq_some_iff.mp hs
    obtain ⟨c, hp, hs⟩ := Option.bind_eq_some_iff.mp hs
    exact h.throws hx hp he hs
  | escape t isOpen => exact he.elim
  | putBack t out =>
    rw [Proxies.step] at hs
    split at hs
    · exact h.putBack ‹_› he hs
    · cases hs

/-! ### Calls and answers -/

/-- No client is with two calls, or with a call and in a pool; a call that waits has sent the
only request on its connection that has no answer; and a call that has returned zero has
read the answer to the request of its last attempt. -/
structure Matched (s : Proxies) : Prop where
  alone : ∀ t t' x x' c, s.calls t = some x → s.calls t' = some x' → x.phase.client = some c →
    x'.phase.client = some c → t' = t
  busy : ∀ t x c, s.calls t = some x → x.phase.client = some c → c ∉ idleOf s.service.vec
  own : ∀ t a c, s.calls t = some ⟨a, .waiting c⟩ → s.asked c = [a]
  answered : ∀ a e, (a, e) ∈ s.results → e.result = 0 → ∃ response, e = .returned response a

theorem claim_of_client {p : Phase} (h : p.client = some c) : p.claim = some (.client c) := by
  cases p with
  | trying | acquiring => cases h
  | holding | waiting | releasing =>
    cases h
    rfl

theorem Kept.matched (h : Kept proto s) : Matched s where
  alone t t' x x' c hx hx' hc hc' := by
    by_contra ht
    have hclaim := claim_of_client hc
    refine h.apart t t' x hx ht (by rw [hclaim]; nofun) ?_
    rw [claim_eq hx', hclaim, claim_of_client hc']
  busy t x c hx hc := h.service.not_idle ((h.placed t x hx).mem (claim_of_client hc))
  own t a c hx := (h.placed t _ hx).2
  answered a e he hret := by
    cases e with
    | tzException | unknown => exact absurd (show (-1 : ℤ) = 0 from hret) (by decide)
    | returned response b =>
      rw [h.right _ he response b rfl]
      exact ⟨response, rfl⟩

/-- **Calls and answers match**, over every run of any number of threads and clients, in
which clients go home and the connections do what is assumed of them. -/
theorem calls_match_answers (g : ℤ) (path : List UInt8) (num : ℤ) (es : List Event)
    (h : Guarded (step H g) (Allowed H proto) (start path num) es) :
    Always (step H g) Matched (start path num) es :=
  Always.of_guarded (fun _ _ _ hs he hstep => hs.step he hstep) (fun _ hs => hs.matched)
    (kept_start path num) h

end

/-- Two threads with one client.  The first attempt of the thread 0 times out and the client
is connected again.  The thread 1 gets it then, and its answer, while the thread 0 finds
no client; the last attempt of the thread 0 is answered. -/
def timedOutRun : List Event :=
  let msg (data : List UInt8) : IMessage := (createIMessageOfLen data.length).writeData data
  let take (t : ℕ) : List Event := [.acquire t, .turn t plainOutside, .turn t plainOutside]
  let sent (call : ℕ) (data : List UInt8) (retry : ℕ) : Attempt :=
    ⟨call, MessageBroker.request 3 (msg data), retry⟩
  let ok : MessageResponse := { code := 1, issetCode := true }
  List.flatten
    [[.network fun _ => true, .update ⟨.refreshAll, []⟩ (listing [server 1]),
        .begin 0 (msg [7, 8]), .begin 1 (msg [9])],
      take 0, [.send 0, .throws 0 (.transport .timedOut) none true, .putBack 0 plainOutside],
      take 1, [.send 1], take 0,
      [.turn 0 plainOutside, .recv 1 (sent 1 [9] 2) ok true, .putBack 1 plainOutside],
      take 0, [.send 0, .recv 0 (sent 0 [7, 8] 0) ok true, .putBack 0 plainOutside]]

theorem calls_match_answers_timedOut :
    ∃ s, runEvents (step smallHost 3) (start rpcPath 1) timedOutRun = some s ∧
      s.results.map (fun o => (o.1.call, o.1.retry, o.2.result)) = [(1, 2, 0), (0, 0, 0)] ∧
      Matched s := by
  obtain ⟨s, hs, hres⟩ := Option.map_eq_some_iff.mp
    (show (runEvents (step smallHost 3) (start rpcPath 1) timedOutRun).map
        (fun s => s.results.map fun o => (o.1.call, o.1.retry, o.2.result)) =
      some [(1, 2, 0), (0, 0, 0)] by decide +kernel)
  have hguard : Guarded (step smallHost 3) (Allowed smallHost fun _ _ => TBINARY_PROTOCOL)
    (start rpcPath 1) timedOutRun := by decide +kernel
  exact ⟨s, hs, hres, (calls_match_answers 3 rpcPath 1 timedOutRun hguard).last hs⟩

end Proxies

end Pilot

end Xkim
