/-
MsgHandler/LocalRouter.lean

The way of a message from `route` to a connection:
`ms::MsMessageRouterLocal` (`framework/ms/ms_message_router_local.cpp`) between
the threads that call `route` and the IO threads that run `IoApp::Impl::push`.

A message passes through three lists, all linked through its `_next` field: the
queue of the router, the slot of its IO thread in the batch that the router
sorts, and the message queue of that IO thread.  From there `push` hands it to
the connection that it names, or to the collector.

`Lists` says what the lists hold and `Carries` that the memory agrees.  The
messages on their way to one IO thread, from the oldest to the newest, are one
list (`Lists.toward`), and no step of the router reorders it: a step only moves
the borders between its parts, appends at its end, or takes its head.  So what
has entered is what has left followed by what is still on the way, for each IO
thread (`always_conserved`).

Other threads come in between at any time.  They may call `route`, which
hands over messages, and they may change whatever does not belong to the
router (`Owned`).
-/
import MsgHandler.Pipeline

namespace Xkim

/-! ### The system -/

/-- `unsigned int io = msg->_io`. -/
def IMessage.ioIndex (msg : IMessage) : ℕ := toUInt32 msg.io

/-- The router and the IO threads.  `entered` and `left` are not part of the
program: they record the messages that were routed, and for each IO thread
those that `pushMessage` was given, with the connection object it found. -/
structure LocalRouter where
  /-- The IO threads, each without the shared part of its state. -/
  ios : ℕ → IoApp
  heap : Heap
  collector : MsMessageBlockQueue
  queue : MsMessageBlockQueue
  /-- The slots of the batch that are still to be dispatched. -/
  slots : List (ℕ × Addr)
  msgQueue : ℕ → MsMessageQueue
  /-- The list an IO thread is pushing. -/
  pushing : ℕ → Option Addr
  entered : List (Addr × IMessage)
  left : ℕ → List ((Addr × IMessage) × Option Obj)

namespace LocalRouter

/-- One step of one thread. -/
inductive Event
  /-- Some thread calls `route(msg)`. -/
  | route (msg : Addr)
  /-- The router takes a batch and sorts it, and dispatches a slot. -/
  | take
  | dispatch
  /-- IO thread `i` takes its message queue, and pushes one message. -/
  | pushTake (i : ℕ)
  | push (i : ℕ)
  /-- Anything else. -/
  | outside (ios : ℕ → IoApp) (H : Heap) (collector : MsMessageBlockQueue)

/-- IO thread `i` with the shared state. -/
def thread (s : LocalRouter) (i : ℕ) : IoApp :=
  { s.ios i with heap := s.heap, collector := some s.collector }

/-- `IoApp::Impl::push` on the first message of its list. -/
def pushNext (s : LocalRouter) (i : ℕ) : Option LocalRouter :=
  (s.pushing i).map fun item =>
    let list := s.heap.next item
    let s := { s with heap := s.heap.setNext item none }
    let t := (s.thread i).pushMessage item
    let msg := s.heap.msg item
    { s with
      ios := Function.update s.ios i t
      heap := t.heap
      collector := t.collector.getD s.collector
      pushing := Function.update s.pushing i list
      left := Function.update s.left i
        (s.left i ++ [((item, msg), (s.ios i).owner.onlineRegister.get msg.conn)]) }

/-- What a step does in a cluster of `n` IO threads; `none` if it cannot be
taken.  The batch is sorted in one step: no other thread can reach it. -/
def step (n : ℕ) (s : LocalRouter) : Event → Option LocalRouter
  | .route msg =>
    let r := s.queue.putList msg s.heap
    some { s with
      queue := r.1
      heap := r.2
      entered := s.entered ++ (s.heap.chainFrom msg).map fun a => (a, s.heap.msg a) }
  | .take =>
    -- the batch before has been dispatched
    if s.slots = [] then
      s.queue.get.bind fun r =>
        (MsMessageRouterLocal.sort n s.heap.brk (some r.1) (fun _ => Links.empty) s.heap).map
          fun sorted =>
            { s with
              queue := r.2
              slots := MsMessageRouterLocal.filled n sorted.1
              heap := sorted.2 }
    else none
  | .dispatch =>
    match s.slots with
    | [] => none
    | (io, msg) :: slots =>
      let r := (s.msgQueue io).put msg s.heap
      some { s with
        slots := slots
        msgQueue := Function.update s.msgQueue io r.1
        heap := r.2 }
  | .pushTake i =>
    if s.pushing i = none then
      some { s with
        pushing := Function.update s.pushing i (s.msgQueue i).get.1
        msgQueue := Function.update s.msgQueue i (s.msgQueue i).get.2 }
    else none
  | .push i => s.pushNext i
  | .outside ios H collector => some { s with ios := ios, heap := H, collector := collector }

/-! ### What the lists hold -/

/-- The messages in the lists of the router. -/
structure Lists where
  queue : List Addr
  slot : ℕ → List Addr
  waiting : ℕ → List Addr
  pushing : ℕ → List Addr

namespace Lists

/-- The messages that have been sorted for IO thread `i`, the oldest first. -/
def sent (L : Lists) (i : ℕ) : List Addr := L.pushing i ++ L.waiting i ++ L.slot i

/-- The messages on their way to IO thread `i`, the oldest first. -/
def toward (L : Lists) (H : Heap) (i : ℕ) : List Addr :=
  L.sent i ++ L.queue.filter fun a => (H.msg a).ioIndex = i

/-- The message is in one of the lists. -/
def Inside (L : Lists) (H : Heap) (a : Addr) : Prop := ∃ i, a ∈ L.toward H i

end Lists

/-- The lists are what the memory says: each message is in one of them, and in
the slot and the queues of an IO thread are messages for this thread. -/
structure Carries (n : ℕ) (s : LocalRouter) (L : Lists) : Prop where
  queue : s.queue.Rep s.heap L.queue
  slots : ∀ e ∈ s.slots, Chain s.heap.next (some e.2) (L.slot e.1)
  slotOnce : (s.slots.map Prod.fst).Nodup
  slotNil : ∀ i, i ∉ s.slots.map Prod.fst → L.slot i = []
  waiting : ∀ i, (s.msgQueue i).Rep s.heap (L.waiting i)
  pushing : ∀ i, Chain s.heap.next (s.pushing i) (L.pushing i)
  nodup : ∀ i, (L.toward s.heap i).Nodup
  io : ∀ i, ∀ a ∈ L.sent i, (s.heap.msg a).ioIndex = i
  bound : ∀ i, ∀ a ∈ L.toward s.heap i, a < s.heap.brk
  cluster : ∀ a ∈ L.queue, (s.heap.msg a).ioIndex < n

variable {n : ℕ} {s s' : LocalRouter} {L : Lists} {i : ℕ} {a : Addr}

namespace Lists

theorem toward_congr {H H' : Heap} (h : ∀ a ∈ L.queue, H'.msg a = H.msg a) (i : ℕ) :
    L.toward H' i = L.toward H i := by
  have hfilter : L.queue.filter (fun a => (H'.msg a).ioIndex = i) =
      L.queue.filter fun a => (H.msg a).ioIndex = i := by
    refine List.filter_congr ?_
    intro a ha
    rw [h a ha]
  rw [toward, toward, hfilter]

theorem inside_of_queue {H : Heap} (ha : a ∈ L.queue) : L.Inside H a :=
  ⟨(H.msg a).ioIndex, List.mem_append_right _ (List.mem_filter.mpr ⟨ha, by simp⟩)⟩

theorem inside_of_sent {H : Heap} (ha : a ∈ L.sent i) : L.Inside H a :=
  ⟨i, List.mem_append_left _ ha⟩

theorem sent_of_pushing (ha : a ∈ L.pushing i) : a ∈ L.sent i :=
  List.mem_append_left _ (List.mem_append_left _ ha)

theorem sent_of_waiting (ha : a ∈ L.waiting i) : a ∈ L.sent i :=
  List.mem_append_left _ (List.mem_append_right _ ha)

theorem sent_of_slot (ha : a ∈ L.slot i) : a ∈ L.sent i := List.mem_append_right _ ha

end Lists

namespace Carries

/-- A message that has been sorted is not in the queue of the router. -/
theorem not_mem_queue (h : Carries n s L) (ha : a ∈ L.sent i) :
    a ∉ L.queue := by
  intro hq
  have hfilter : a ∈ L.queue.filter fun a => (s.heap.msg a).ioIndex = i :=
    List.mem_filter.mpr ⟨hq, by simp [h.io i a ha]⟩
  exact (List.nodup_append.mp (h.nodup i)).2.2 a ha a hfilter rfl

/-- Nor is it on its way to another IO thread. -/
theorem ne_of_mem {j : ℕ} {b : Addr} (h : Carries n s L) (hij : j ≠ i)
    (ha : a ∈ L.sent i)
    (hb : b ∈ L.sent j) : b ≠ a := by
  rintro rfl
  exact hij ((h.io j b hb).symm.trans (h.io i b ha))

/-- The parts of what has been sorted for an IO thread share no message. -/
theorem waiting_apart (h : Carries n s L) (ha : a ∈ L.waiting i) :
    a ∉ L.pushing i ∧ a ∉ L.slot i := by
  have hparts := (List.nodup_append.mp (h.nodup i)).1
  rw [Lists.sent, List.nodup_append, List.nodup_append] at hparts
  obtain ⟨⟨-, -, hpush⟩, -, hslot⟩ := hparts
  exact ⟨fun hp => hpush a hp a ha rfl,
    fun hs => hslot a (List.mem_append_right _ ha) a hs rfl⟩

/-- The lists that hold the sorted messages depend on the links of these messages only. -/
theorem sent_congr {next : Addr → Option Addr} (h : Carries n s L)
    (hnext : ∀ i, ∀ a ∈ L.sent i, next a = s.heap.next a) :
    (∀ e ∈ s.slots, Chain next (some e.2) (L.slot e.1)) ∧
      (∀ i, Links.Rep next (s.msgQueue i).links (L.waiting i)) ∧
      ∀ i, Chain next (s.pushing i) (L.pushing i) := by
  refine ⟨?_, ?_, ?_⟩
  · intro e he
    refine (h.slots e he).congr ?_
    intro a ha
    exact hnext e.1 a (Lists.sent_of_slot ha)
  · intro i
    refine (h.waiting i).congr ?_
    intro a ha
    exact hnext i a (Lists.sent_of_waiting ha)
  · intro i
    refine (h.pushing i).congr ?_
    intro a ha
    exact hnext i a (Lists.sent_of_pushing ha)

/-- **What does not belong to the router does not matter.** -/
theorem frame (h : Carries n s L) (hqueue : s'.queue = s.queue) (hslots : s'.slots = s.slots)
    (hmsgQueue : s'.msgQueue = s.msgQueue) (hpushing : s'.pushing = s.pushing)
    (hbrk : s.heap.brk ≤ s'.heap.brk)
    (hnext : ∀ a, L.Inside s.heap a → s'.heap.next a = s.heap.next a)
    (hmsg : ∀ a, L.Inside s.heap a → s'.heap.msg a = s.heap.msg a) : Carries n s' L := by
  have htoward : ∀ i, L.toward s'.heap i = L.toward s.heap i :=
    Lists.toward_congr fun a ha => hmsg a (Lists.inside_of_queue ha)
  have hin : ∀ i, ∀ a ∈ L.sent i, L.Inside s.heap a :=
    fun i a ha => Lists.inside_of_sent ha
  obtain ⟨hslot, hwaiting, hpush⟩ := h.sent_congr fun i a ha => hnext a (hin i a ha)
  refine ⟨?_, ?_, ?_, ?_, ?_, ?_, ?_, ?_, ?_, ?_⟩
  · rw [hqueue]
    exact h.queue.congr fun a ha => hnext a (Lists.inside_of_queue ha)
  · rw [hslots]
    exact hslot
  · rw [hslots]
    exact h.slotOnce
  · rw [hslots]
    exact h.slotNil
  · rw [hmsgQueue]
    exact hwaiting
  · rw [hpushing]
    exact hpush
  · intro i
    rw [htoward]
    exact h.nodup i
  · intro i a ha
    rw [hmsg a (hin i a ha)]
    exact h.io i a ha
  · intro i a ha
    rw [htoward] at ha
    exact lt_of_lt_of_le (h.bound i a ha) hbrk
  · intro a ha
    rw [hmsg a (Lists.inside_of_queue ha)]
    exact h.cluster a ha

end Carries

end LocalRouter

/-! ### Sorting -/

/-- The slots hold what they held, and behind it the messages `l` for their IO
threads. -/
structure MsMessageRouterLocal.Sorted (l : List Addr) (S : ℕ → List Addr) (H : Heap)
    (r : (ℕ → Links Addr) × Heap) : Prop where
  slots : ∀ i, Links.Rep r.2.next (r.1 i) (S i ++ l.filter fun a => (H.msg a).ioIndex = i)
  links : r.2 = { H with next := r.2.next }
  next : ∀ a, a ∉ l → (∀ i, a ∉ S i) → r.2.next a = H.next a

/-- One message more in the slot of its IO thread. -/
theorem MsMessageRouterLocal.update_slot (S : ℕ → List Addr) (H : Heap) (v : Addr) (i : ℕ) :
    Function.update S (H.msg v).ioIndex (S (H.msg v).ioIndex ++ [v]) i =
      S i ++ [v].filter fun a => (H.msg a).ioIndex = i := by
  rcases eq_or_ne i (H.msg v).ioIndex with rfl | hi
  · rw [Function.update_self, List.filter_singleton, decide_eq_true rfl]
    rfl
  · rw [Function.update_of_ne hi, List.filter_singleton, decide_eq_false (Ne.symm hi)]
    exact (List.append_nil _).symm

/-- **The loop of `run` sorts a batch** by IO thread, and keeps the order. -/
theorem MsMessageRouterLocal.sort_sorted {n fuel : ℕ} {l : List Addr} {list : Option Addr}
    {slots : ℕ → Links Addr} {S : ℕ → List Addr} {H : Heap} (hfuel : l.length ≤ fuel)
    (hl : Chain H.next list l) (hslots : ∀ i, Links.Rep H.next (slots i) (S i))
    (hio : ∀ a ∈ l, (H.msg a).ioIndex < n) (hS : ∀ i, ∀ a ∈ S i, (H.msg a).ioIndex = i)
    (hdisj : ∀ i, ∀ a ∈ l, a ∉ S i) :
    ∃ r, MsMessageRouterLocal.sort n fuel list slots H = some r ∧ Sorted l S H r := by
  induction l generalizing fuel list slots S H with
  | nil =>
    obtain rfl : list = none := hl
    refine ⟨(slots, H), by cases fuel <;> rfl, ?_, rfl, fun _ _ _ => rfl⟩
    intro i
    simpa using hslots i
  | cons v l ih =>
    obtain ⟨fuel, rfl⟩ : ∃ k, fuel = k + 1 := Nat.exists_eq_succ_of_ne_zero (by
      rintro rfl
      simp at hfuel)
    have hvl : v ∉ l := (List.nodup_cons.mp (Chain.nodup hl)).1
    have hv : ∀ i, v ∉ S i := fun i => hdisj i v List.mem_cons_self
    obtain ⟨rfl, hrest⟩ := hl
    set io := (H.msg v).ioIndex with hiodef
    have hmem : ∀ i a, a ∈ Function.update S io (S io ++ [v]) i → a ∈ S i ∨ (a = v ∧ io = i) := by
      intro i a ha
      rw [update_slot, List.mem_append, List.mem_filter, List.mem_singleton] at ha
      refine ha.imp id ?_
      rintro ⟨rfl, heq⟩
      exact ⟨rfl, of_decide_eq_true heq⟩
    have hchain : Chain ((slots io).attach (Function.update H.next v none) v v).1 (H.next v) l := by
      refine Seg.congr hrest ?_
      intro a ha
      refine Links.push_of_not_mem (hslots io) (hv io) ?_ (hdisj io a (List.mem_cons_of_mem _ ha))
      rintro rfl
      exact hvl ha
    -- the slots share no message, as each holds messages for its own thread
    have hapart : ∀ i ≠ io, ∀ a ∈ S i, a ∉ S io :=
      fun i hi a ha haio => hi ((hS i a ha).symm.trans (hS io a haio))
    have hios : ∀ i, ∀ a ∈ Function.update S io (S io ++ [v]) i, (H.msg a).ioIndex = i := by
      intro i a ha
      rcases hmem i a ha with ha | ⟨rfl, heq⟩
      · exact hS i a ha
      · exact heq
    have hrestApart : ∀ i, ∀ a ∈ l, a ∉ Function.update S io (S io ++ [v]) i := by
      intro i a ha hai
      rcases hmem i a hai with hai | ⟨rfl, -⟩
      · exact hdisj i a (List.mem_cons_of_mem _ ha) hai
      · exact hvl ha
    obtain ⟨r, hr, hsorted⟩ := ih
      (H := { H with next := ((slots io).attach (Function.update H.next v none) v v).1 })
      (Nat.le_of_succ_le_succ hfuel) hchain (Links.rep_push_update hslots hv hapart)
      (fun a ha => hio a (List.mem_cons_of_mem _ ha)) hios hrestApart
    refine ⟨r, ?_, ?_, hsorted.links, ?_⟩
    · rw [← hr]
      exact if_pos (hio v List.mem_cons_self)
    · intro i
      have hrep := hsorted.slots i
      rw [update_slot, List.append_assoc, ← List.filter_append] at hrep
      exact hrep
    · intro a ha haS
      rw [List.mem_cons, not_or] at ha
      rw [← Links.push_of_not_mem (hslots io) (hv io) ha.1 (haS io)]
      refine hsorted.next a ha.2 ?_
      intro i hai
      rcases hmem i a hai with hai | ⟨hav, -⟩
      · exact haS i hai
      · exact ha.1 hav

theorem MsMessageRouterLocal.mem_filled {n : ℕ} {slots : ℕ → Links Addr} {e : ℕ × Addr} :
    e ∈ filled n slots ↔ e.1 < n ∧ (slots e.1).head = some e.2 := by
  obtain ⟨i, v⟩ := e
  unfold filled
  rw [List.mem_filterMap]
  constructor
  · rintro ⟨io, hio, hsome⟩
    obtain ⟨msg, hmsg, heq⟩ := Option.map_eq_some_iff.mp hsome
    obtain ⟨rfl, rfl⟩ := Prod.mk.inj heq
    exact ⟨List.mem_range.mp hio, hmsg⟩
  · rintro ⟨hi, hv⟩
    exact ⟨i, List.mem_range.mpr hi, Option.map_eq_some_iff.mpr ⟨v, hv, rfl⟩⟩

/-- Every slot is dispatched at most once. -/
theorem MsMessageRouterLocal.filled_once (n : ℕ) (slots : ℕ → Links Addr) :
    ((filled n slots).map Prod.fst).Nodup := by
  have hmap : (filled n slots).map Prod.fst =
      (List.range n).filterMap fun io => (slots io).head.map fun _ => io := by
    unfold filled
    rw [List.map_filterMap]
    refine List.filterMap_congr ?_
    intro io _
    cases (slots io).head <;> rfl
  rw [hmap]
  refine List.nodup_range.filterMap ?_
  intro i j k hi hj
  obtain ⟨-, -, rfl⟩ := Option.map_eq_some_iff.mp hi
  obtain ⟨-, -, rfl⟩ := Option.map_eq_some_iff.mp hj
  rfl

namespace LocalRouter

variable {n : ℕ} {s s' : LocalRouter} {L L' : Lists} {i : ℕ} {a : Addr}

/-! ### Who owns a message -/

/-- No list that others append to ends in the message: neither the queue of the
collector nor the push list of a registered connection. -/
structure Free (s : LocalRouter) (a : Addr) : Prop where
  collector : s.collector.links.tail ≠ some a
  push : ∀ i c o t, (s.ios i).owner.onlineRegister.get c = some o →
    ((s.ios i).objs o).2.pushBuffer.links.tail = some t → (s.heap.pd t).msg ≠ a

/-- The push lists of registered connections end in memory. -/
def Sound (s : LocalRouter) : Prop :=
  ∀ i c o t, (s.ios i).owner.onlineRegister.get c = some o →
    ((s.ios i).objs o).2.pushBuffer.links.tail = some t → t < s.heap.pdBrk

/-- What other threads may do.  `route` is given a list of messages that
nothing else refers to, each for an IO thread of the cluster; and whatever else
happens leaves the messages of the router alone. -/
def Owned (n : ℕ) (s : LocalRouter) : Event → Prop
  | .route msg => ∀ L, Carries n s L → ∃ l, Chain s.heap.next (some msg) (msg :: l) ∧
      ∀ a ∈ msg :: l, a < s.heap.brk ∧ ¬ L.Inside s.heap a ∧ (s.heap.msg a).ioIndex < n ∧ s.Free a
  | .outside ios H collector =>
      s.heap.brk ≤ H.brk ∧ Sound { s with ios := ios, heap := H, collector := collector } ∧
        ∀ L, Carries n s L → ∀ a, L.Inside s.heap a →
          H.next a = s.heap.next a ∧ H.msg a = s.heap.msg a ∧
            Free { s with ios := ios, heap := H, collector := collector } a
  | _ => True

/-! ### What every step keeps -/

/-- The invariant: the lists are in memory, nothing else refers to their
messages, and what has entered is what has left and what is on its way. -/
structure Inv (n : ℕ) (s : LocalRouter) (L : Lists) : Prop where
  carries : Carries n s L
  sound : s.Sound
  free : ∀ a, L.Inside s.heap a → s.Free a
  conserved : ∀ i, (s.entered.filter fun e => e.2.ioIndex = i) =
    (s.left i).map Prod.fst ++ (L.toward s.heap i).map fun a => (a, s.heap.msg a)

/-- A step that moves messages from one list to the next. -/
theorem Inv.moved (h : Inv n s L) (hcarries : Carries n s' L') (hios : s'.ios = s.ios)
    (hcollector : s'.collector = s.collector) (hentered : s'.entered = s.entered)
    (hleft : s'.left = s.left) (hmsg : s'.heap.msg = s.heap.msg) (hpd : s'.heap.pd = s.heap.pd)
    (hpdBrk : s'.heap.pdBrk = s.heap.pdBrk)
    (htoward : ∀ i, L'.toward s'.heap i = L.toward s.heap i) : Inv n s' L' := by
  refine ⟨hcarries, ?_, ?_, ?_⟩
  · rw [Sound, hios, hpdBrk]
    exact h.sound
  · rintro a ⟨i, ha⟩
    rw [htoward] at ha
    have hfree := h.free a ⟨i, ha⟩
    refine ⟨?_, ?_⟩
    · rw [hcollector]
      exact hfree.collector
    · rw [hios, hpd]
      exact hfree.push
  · intro i
    rw [hentered, hleft, htoward, hmsg]
    exact h.conserved i

/-! ### The queue of the router -/

theorem Lists.toward_append (L : Lists) (l : List Addr) (H : Heap) (i : ℕ) :
    { L with queue := L.queue ++ l }.toward H i =
      L.toward H i ++ l.filter fun a => (H.msg a).ioIndex = i := by
  rw [toward, toward, List.filter_append, List.append_assoc]
  rfl

/-- **`route` appends its list.** -/
theorem Carries.route {msg : Addr} {l : List Addr} (h : Carries n s L)
    (hl : Chain s.heap.next (some msg) (msg :: l))
    (hnew : ∀ a ∈ msg :: l, a < s.heap.brk ∧ ¬ L.Inside s.heap a ∧ (s.heap.msg a).ioIndex < n)
    (E : List (Addr × IMessage)) :
    Carries n { s with
        queue := (s.queue.putList msg s.heap).1
        heap := (s.queue.putList msg s.heap).2
        entered := E }
      { L with queue := L.queue ++ msg :: l } := by
  obtain ⟨hslot, hwaiting, hpush⟩ :=
    h.sent_congr fun i a ha => Links.attach_of_not_mem h.queue.1 (h.not_mem_queue ha)
  have hdisj : ∀ a ∈ L.queue, a ∉ msg :: l := by
    intro a ha hmem
    exact (hnew a hmem).2.1 (Lists.inside_of_queue ha)
  refine ⟨h.queue.putList hl hdisj fun a ha => (hnew a ha).1, hslot, h.slotOnce, h.slotNil,
    hwaiting, hpush, ?_, h.io, ?_, ?_⟩
  · intro i
    rw [Lists.toward_append]
    refine List.nodup_append.mpr ⟨h.nodup i, (Chain.nodup hl).filter _, ?_⟩
    rintro a ha b hb rfl
    exact (hnew a (List.mem_of_mem_filter hb)).2.1 ⟨i, ha⟩
  · intro i a ha
    rw [Lists.toward_append] at ha
    rcases List.mem_append.mp ha with ha | ha
    · exact h.bound i a ha
    · exact (hnew a (List.mem_of_mem_filter ha)).1
  · intro a ha
    rcases List.mem_append.mp ha with ha | ha
    · exact h.cluster a ha
    · exact (hnew a ha).2.2

theorem Inv.route {msg : Addr} (h : Inv n s L) (howned : Owned n s (.route msg))
    (hstep : step n s (.route msg) = some s') : ∃ L', Inv n s' L' := by
  obtain ⟨l, hl, hnew⟩ := howned L h.carries
  obtain rfl := Option.some.inj hstep
  refine ⟨_, h.carries.route hl (fun a ha => ⟨(hnew a ha).1, (hnew a ha).2.1, (hnew a ha).2.2.1⟩) _,
    h.sound, ?_, ?_⟩
  · rintro a ⟨i, ha⟩
    rw [Lists.toward_append] at ha
    have hfree : s.Free a := by
      rcases List.mem_append.mp ha with ha | ha
      · exact h.free a ⟨i, ha⟩
      · exact (hnew a (List.mem_of_mem_filter ha)).2.2.2
    exact ⟨hfree.collector, hfree.push⟩
  · intro i
    rw [Lists.toward_append, Heap.chainFrom_eq hl fun a ha => (hnew a ha).1, List.filter_append,
      h.conserved i, List.map_append, ← List.append_assoc, List.filter_map]
    rfl

/-! ### The batch -/

/-- The lists after the queue has been sorted. -/
def Lists.sorted (L : Lists) (H : Heap) : Lists :=
  { L with queue := [], slot := fun i => L.queue.filter fun a => (H.msg a).ioIndex = i }

theorem Lists.toward_sorted {H H' : Heap} (hslot : ∀ i, L.slot i = []) (i : ℕ) :
    (L.sorted H).toward H' i = L.toward H i := by
  unfold toward sent
  rw [hslot i, List.append_nil]
  exact List.append_nil _

/-- The slots of a sorted batch. -/
theorem Carries.sorted {r : (ℕ → Links Addr) × Heap} (h : Carries n s L)
    (hslot : ∀ i, L.slot i = [])
    (hr : MsMessageRouterLocal.Sorted L.queue (fun _ => []) s.heap r) :
    Carries n { s with
        queue := MsMessageBlockQueue.empty
        slots := MsMessageRouterLocal.filled n r.1
        heap := r.2 } (L.sorted s.heap) := by
  have hmsg : r.2.msg = s.heap.msg := by rw [hr.links]
  obtain ⟨-, hwaiting, hpush⟩ :=
    h.sent_congr fun i a ha => hr.next a (h.not_mem_queue ha) fun _ => List.not_mem_nil
  refine ⟨MsMessageBlockQueue.rep_empty, ?_, MsMessageRouterLocal.filled_once n r.1, ?_, hwaiting,
    hpush, ?_, ?_, ?_, ?_⟩
  · intro e he
    have hrep := (hr.slots e.1).1
    rw [(MsMessageRouterLocal.mem_filled.mp he).2] at hrep
    exact hrep
  · -- a slot with a message is dispatched
    intro i hi
    by_contra hne
    obtain ⟨a, l, hal⟩ := List.exists_cons_of_ne_nil hne
    have hal' : L.queue.filter (fun a => (s.heap.msg a).ioIndex = i) = a :: l := hal
    have hhead := (hr.slots i).head_eq
    rw [List.nil_append, hal'] at hhead
    have ha : a ∈ L.queue.filter fun a => (s.heap.msg a).ioIndex = i :=
      hal' ▸ List.mem_cons_self
    have hin : i < n := by
      have hlt := h.cluster a (List.mem_of_mem_filter ha)
      rwa [of_decide_eq_true (List.mem_filter.mp ha).2] at hlt
    exact hi (List.mem_map.mpr ⟨(i, a), MsMessageRouterLocal.mem_filled.mpr ⟨hin, hhead⟩, rfl⟩)
  · intro i
    rw [Lists.toward_sorted hslot]
    exact h.nodup i
  · intro i a ha
    show (r.2.msg a).ioIndex = i
    rw [hmsg]
    rcases List.mem_append.mp ha with ha | ha
    · exact h.io i a (List.mem_append_left _ ha)
    · exact of_decide_eq_true (List.mem_filter.mp ha).2
  · intro i a ha
    rw [Lists.toward_sorted hslot] at ha
    show a < r.2.brk
    rw [hr.links]
    exact h.bound i a ha
  · rintro _ ⟨⟩

/-- **The router takes a batch**: what was in the queue is in the slots.  The
assertion that every `_io` is in range does not fail. -/
theorem Carries.take (h : Carries n s L) (hslots : s.slots = []) (hsize : s.queue.listSize ≠ 0) :
    ∃ s', step n s .take = some s' ∧ Carries n s' (L.sorted s.heap) ∧ (∀ i, L.slot i = []) ∧
      s' = { s with
        queue := s'.queue, slots := s'.slots, heap := { s.heap with next := s'.heap.next } } := by
  have hslot : ∀ i, L.slot i = [] := fun i => h.slotNil i (by simp [hslots])
  have hne : L.queue ≠ [] := by
    intro hnil
    exact hsize (h.queue.2.trans (by rw [hnil]; rfl))
  obtain ⟨v, hget, hchain⟩ := h.queue.get hne
  have hlen : L.queue.length ≤ s.heap.brk := by
    refine length_le_of_nodup_lt h.queue.1.nodup ?_
    intro a ha
    obtain ⟨i, hi⟩ := Lists.inside_of_queue (L := L) (H := s.heap) ha
    exact h.bound i a hi
  have hempty : ∀ i : ℕ, Links.Rep s.heap.next ((fun _ => Links.empty : ℕ → Links Addr) i)
      ((fun _ => [] : ℕ → List Addr) i) := fun _ => Links.rep_empty
  obtain ⟨r, hr, hsorted⟩ := MsMessageRouterLocal.sort_sorted hlen hchain hempty h.cluster
    (by simp) (by simp)
  refine ⟨_, ?_, h.sorted hslot hsorted, hslot, ?_⟩
  · dsimp only [step]
    rw [if_pos hslots, hget, Option.bind_some, hr]
    rfl
  · rw [hsorted.links]

theorem Inv.take (h : Inv n s L) (hstep : step n s .take = some s') : ∃ L', Inv n s' L' := by
  have hslots : s.slots = [] := by
    by_contra hne
    dsimp only [step] at hstep
    rw [if_neg hne] at hstep
    cases hstep
  have hsize : s.queue.listSize ≠ 0 := by
    intro hzero
    dsimp only [step] at hstep
    rw [if_pos hslots, MsMessageBlockQueue.get, if_pos hzero] at hstep
    cases hstep
  obtain ⟨t, ht, hcarries, hslot, hsame⟩ := h.carries.take hslots hsize
  obtain rfl := Option.some.inj (ht.symm.trans hstep)
  refine ⟨_, h.moved hcarries ?_ ?_ ?_ ?_ ?_ ?_ ?_ (Lists.toward_sorted hslot)⟩ <;> rw [hsame]

/-- The lists after a slot has been dispatched. -/
def Lists.dispatched (L : Lists) (io : ℕ) : Lists :=
  { L with
    slot := Function.update L.slot io []
    waiting := Function.update L.waiting io (L.waiting io ++ L.slot io) }

theorem Lists.sent_dispatched (L : Lists) (io i : ℕ) : (L.dispatched io).sent i = L.sent i := by
  unfold sent dispatched
  rcases eq_or_ne i io with rfl | hi
  · simp
  · simp [Function.update_of_ne hi]

theorem Lists.toward_dispatched (L : Lists) (io : ℕ) (H : Heap) (i : ℕ) :
    (L.dispatched io).toward H i = L.toward H i := by
  rw [toward, toward, sent_dispatched]
  rfl

/-- **`dispatchPushList` appends a slot** to the queue of its IO thread. -/
theorem Carries.dispatch {io : ℕ} {msg : Addr} {slots : List (ℕ × Addr)} (h : Carries n s L)
    (hslots : s.slots = (io, msg) :: slots) :
    Carries n { s with
        slots := slots
        msgQueue := Function.update s.msgQueue io ((s.msgQueue io).put msg s.heap).1
        heap := ((s.msgQueue io).put msg s.heap).2 } (L.dispatched io) := by
  have hchain : Chain s.heap.next (some msg) (L.slot io) :=
    h.slots (io, msg) (hslots ▸ List.mem_cons_self)
  obtain ⟨l, hl⟩ : ∃ l, L.slot io = msg :: l := List.head?_eq_some_iff.mp hchain.head_eq.symm
  have honce : io ∉ slots.map Prod.fst ∧ (slots.map Prod.fst).Nodup := by
    have hnodup := h.slotOnce
    rw [hslots] at hnodup
    exact List.nodup_cons.mp hnodup
  have hkeep : ∀ a, a ∉ L.waiting io →
      ((s.msgQueue io).put msg s.heap).2.next a = s.heap.next a :=
    fun a ha => Links.attach_of_not_mem (h.waiting io) ha
  have hother : ∀ j ≠ io, ∀ a ∈ L.sent j, a ∉ L.waiting io := by
    intro j hj a ha hw
    exact h.ne_of_mem hj (Lists.sent_of_waiting hw) ha rfl
  refine ⟨?_, ?_, honce.2, ?_, ?_, ?_, ?_, ?_, ?_, h.cluster⟩
  · refine h.queue.congr ?_
    intro a ha
    refine hkeep a ?_
    intro hw
    exact h.not_mem_queue (Lists.sent_of_waiting hw) ha
  · intro e he
    have hne : e.1 ≠ io := by
      intro heq
      exact honce.1 (heq ▸ List.mem_map_of_mem he)
    show Chain _ (some e.2) (Function.update L.slot io [] e.1)
    rw [Function.update_of_ne hne]
    refine (h.slots e (hslots ▸ List.mem_cons_of_mem _ he)).congr ?_
    intro a ha
    exact hkeep a (hother e.1 hne a (Lists.sent_of_slot ha))
  · intro i hi
    show Function.update L.slot io [] i = []
    rcases eq_or_ne i io with rfl | hne
    · exact Function.update_self ..
    · rw [Function.update_of_ne hne]
      refine h.slotNil i ?_
      rw [hslots, List.map_cons, List.mem_cons, not_or]
      exact ⟨hne, hi⟩
  · intro i
    show MsMessageQueue.Rep (Function.update s.msgQueue io _ i) _
      (Function.update L.waiting io (L.waiting io ++ L.slot io) i)
    rcases eq_or_ne i io with rfl | hne
    · rw [Function.update_self, Function.update_self, hl]
      refine (h.waiting i).put (hl ▸ hchain) (hl ▸ fun a ha => (h.waiting_apart ha).2) ?_
      intro a ha
      exact h.bound i a (List.mem_append_left _ (Lists.sent_of_slot (hl ▸ ha)))
    · rw [Function.update_of_ne hne, Function.update_of_ne hne]
      refine (h.waiting i).congr ?_
      intro a ha
      exact hkeep a (hother i hne a (Lists.sent_of_waiting ha))
  · intro i
    refine (h.pushing i).congr ?_
    intro a ha
    refine hkeep a ?_
    rcases eq_or_ne i io with rfl | hne
    · exact fun hw => (h.waiting_apart hw).1 ha
    · exact hother i hne a (Lists.sent_of_pushing ha)
  · intro i
    rw [Lists.toward_dispatched]
    exact h.nodup i
  · intro i a ha
    rw [Lists.sent_dispatched] at ha
    exact h.io i a ha
  · intro i a ha
    rw [Lists.toward_dispatched] at ha
    exact h.bound i a ha

theorem Inv.dispatch (h : Inv n s L) (hstep : step n s .dispatch = some s') :
    ∃ L', Inv n s' L' := by
  dsimp only [step] at hstep
  rcases hslots : s.slots with - | ⟨⟨io, msg⟩, slots⟩
  · rw [hslots] at hstep
    cases hstep
  · rw [hslots] at hstep
    obtain rfl := Option.some.inj hstep
    exact ⟨_, h.moved (h.carries.dispatch hslots) rfl rfl rfl rfl rfl rfl rfl
      (L.toward_dispatched io s.heap)⟩

/-! ### The IO threads -/

/-- The lists after IO thread `i` has taken its queue. -/
def Lists.taken (L : Lists) (i : ℕ) : Lists :=
  { L with
    waiting := Function.update L.waiting i []
    pushing := Function.update L.pushing i (L.waiting i) }

theorem Lists.sent_taken (hnil : L.pushing i = []) (j : ℕ) : (L.taken i).sent j = L.sent j := by
  unfold sent taken
  rcases eq_or_ne j i with rfl | hj
  · simp [hnil]
  · simp [Function.update_of_ne hj]

theorem Lists.toward_taken (hnil : L.pushing i = []) (H : Heap) (j : ℕ) :
    (L.taken i).toward H j = L.toward H j := by
  rw [toward, toward, sent_taken hnil]
  rfl

/-- **`push` takes the queue** of its IO thread. -/
theorem Carries.pushTake (h : Carries n s L) (hnone : s.pushing i = none) :
    L.pushing i = [] ∧ Carries n { s with
        pushing := Function.update s.pushing i (s.msgQueue i).get.1
        msgQueue := Function.update s.msgQueue i (s.msgQueue i).get.2 } (L.taken i) := by
  have hnil : L.pushing i = [] :=
    List.head?_eq_none_iff.mp ((h.pushing i).head_eq.symm.trans hnone)
  refine ⟨hnil, h.queue, h.slots, h.slotOnce, h.slotNil, ?_, ?_, ?_, ?_, ?_, h.cluster⟩
  · intro j
    show MsMessageQueue.Rep (Function.update s.msgQueue i _ j) _
      (Function.update L.waiting i [] j)
    rcases eq_or_ne j i with rfl | hj
    · rw [Function.update_self, Function.update_self]
      exact (h.waiting j).get.2
    · rw [Function.update_of_ne hj, Function.update_of_ne hj]
      exact h.waiting j
  · intro j
    show Chain _ (Function.update s.pushing i _ j) (Function.update L.pushing i (L.waiting i) j)
    rcases eq_or_ne j i with rfl | hj
    · rw [Function.update_self, Function.update_self]
      exact (h.waiting j).get.1
    · rw [Function.update_of_ne hj, Function.update_of_ne hj]
      exact h.pushing j
  · intro j
    rw [Lists.toward_taken hnil]
    exact h.nodup j
  · intro j a ha
    rw [Lists.sent_taken hnil] at ha
    exact h.io j a ha
  · intro j a ha
    rw [Lists.toward_taken hnil] at ha
    exact h.bound j a ha

theorem Inv.pushTake (h : Inv n s L) (hstep : step n s (.pushTake i) = some s') :
    ∃ L', Inv n s' L' := by
  dsimp only [step] at hstep
  by_cases hnone : s.pushing i = none
  · rw [if_pos hnone] at hstep
    obtain rfl := Option.some.inj hstep
    obtain ⟨hnil, hcarries⟩ := h.carries.pushTake hnone
    exact ⟨_, h.moved hcarries rfl rfl rfl rfl rfl rfl rfl (Lists.toward_taken hnil s.heap)⟩
  · rw [if_neg hnone] at hstep
    cases hstep

/-- The lists after IO thread `i` has pushed the first message of its list. -/
def Lists.pushed (L : Lists) (i : ℕ) : Lists :=
  { L with pushing := Function.update L.pushing i (L.pushing i).tail }

theorem Lists.toward_pushed {l : List Addr} (hl : L.pushing i = a :: l) (H : Heap) :
    L.toward H i = a :: (L.pushed i).toward H i ∧
      ∀ j ≠ i, (L.pushed i).toward H j = L.toward H j := by
  unfold toward sent pushed
  refine ⟨by simp [hl], ?_⟩
  intro j hj
  simp [Function.update_of_ne hj]

end LocalRouter

/-- A push datum for `v`, in fresh memory. -/
def Heap.newDatum (H : Heap) (v : Addr) : Heap :=
  { H with
    pd := Function.update H.pd H.pdBrk ⟨v, (H.msg v).frameLen, 0⟩
    pdNext := Function.update H.pdNext H.pdBrk none
    pdBrk := H.pdBrk + 1 }

/-- `put` writes the link of the new message and of the last one. -/
theorem IoPushList.put_next_of_ne {P : IoPushList} {d a : Addr} {H : Heap} (ha : a ≠ (H.pd d).msg)
    (htail : ∀ t, P.links.tail = some t → a ≠ (H.pd t).msg) :
    (P.put d H).2.next a = H.next a := by
  rcases ht : P.links.tail with - | t
  · simp only [IoPushList.put, ht, Heap.setNext]
    exact Function.update_of_ne ha ..
  · simp only [IoPushList.put, ht, Heap.setNext]
    rw [Function.update_of_ne (htail t ht), Function.update_of_ne ha]

/-- The same for the queue of the collector. -/
theorem MsMessageBlockQueue.put_next_of_ne {Q : MsMessageBlockQueue} {v a : Addr} {H : Heap}
    (ha : a ≠ v) (htail : Q.links.tail ≠ some a) : (Q.put v H).2.next a = H.next a := by
  have hclear : Function.update H.next v none a = H.next a := Function.update_of_ne ha ..
  show (Q.links.attach (Function.update H.next v none) v v).1 a = H.next a
  unfold Links.attach
  rcases ht : Q.links.tail with - | t
  · exact hclear
  · rw [ht] at htail
    have hne : a ≠ t := fun heq => htail (heq ▸ rfl)
    exact (Function.update_of_ne hne ..).trans hclear

theorem Links.attach_tail {α : Type*} [DecidableEq α] (Q : Links α) (next : α → Option α)
    (v last : α) : (Q.attach next v last).2.tail = some last := by
  unfold Links.attach
  split <;> rfl

namespace IoApp

variable {t t' : IoApp} {v : Addr} {o : Obj}

/-- What `pushMessage` does when it finds the connection `o`. -/
structure Found (t : IoApp) (v : Addr) (o : Obj) (t' : IoApp) : Prop where
  owner : t'.owner = t.owner
  collector : t'.collector = t.collector
  objs : ∀ o' ≠ o, t'.objs o' = t.objs o'
  list : (t'.objs o).2.pushBuffer =
    ((t.objs o).2.pushBuffer.put t.heap.pdBrk (t.heap.newDatum v)).1
  heap : t'.heap = ((t.objs o).2.pushBuffer.put t.heap.pdBrk (t.heap.newDatum v)).2

theorem pushMessage_found (h : t.owner.onlineRegister.get (t.heap.msg v).conn = some o) :
    Found t v o (t.pushMessage v) := by
  unfold pushMessage
  dsimp only
  rw [h]
  refine ⟨rfl, rfl, ?_, ?_, rfl⟩
  · intro o' ho'
    exact Function.update_of_ne ho' ..
  · show (Function.update t.objs o _ o).2.pushBuffer = _
    rw [Function.update_self]
    rfl

theorem Found.pd_of_lt (h : Found t v o t') {d : Addr} (hd : d < t.heap.pdBrk) :
    t'.heap.pd d = t.heap.pd d := by
  rw [h.heap]
  exact Function.update_of_ne hd.ne ..

theorem Found.pd_new (h : Found t v o t') : (t'.heap.pd t.heap.pdBrk).msg = v := by
  rw [h.heap]
  show (Function.update t.heap.pd t.heap.pdBrk _ t.heap.pdBrk).msg = v
  rw [Function.update_self]

/-- The links that are written are those of the message and of the last one of its
connection. -/
theorem Found.next_of_ne (h : Found t v o t') {a : Addr} (ha : a ≠ v)
    (htail : ∀ d, (t.objs o).2.pushBuffer.links.tail = some d →
      d < t.heap.pdBrk ∧ (t.heap.pd d).msg ≠ a) : t'.heap.next a = t.heap.next a := by
  rw [h.heap, IoPushList.put_next_of_ne]
  · rfl
  · show a ≠ (Function.update t.heap.pd t.heap.pdBrk _ t.heap.pdBrk).msg
    rw [Function.update_self]
    exact ha
  · intro d hd
    obtain ⟨hlt, hne⟩ := htail d hd
    show a ≠ (Function.update t.heap.pd t.heap.pdBrk _ d).msg
    rw [Function.update_of_ne hlt.ne]
    exact hne.symm

/-- A push list of a registered connection ends as before, or in the new datum. -/
theorem Found.tail (h : Found t v o t') {c : ℕ} {o' : Obj} {d : Addr}
    (hget : t'.owner.onlineRegister.get c = some o')
    (hd : (t'.objs o').2.pushBuffer.links.tail = some d) :
    d = t.heap.pdBrk ∨ (t.owner.onlineRegister.get c = some o' ∧
      (t.objs o').2.pushBuffer.links.tail = some d) := by
  rw [h.owner] at hget
  rcases eq_or_ne o' o with rfl | ho
  · left
    rw [h.list] at hd
    exact (Option.some.inj ((Links.attach_tail _ _ _ _).symm.trans hd)).symm
  · right
    rw [h.objs o' ho] at hd
    exact ⟨hget, hd⟩

/-- What `pushMessage` does when the connection is gone. -/
structure Gone (t : IoApp) (v : Addr) (Q : MsMessageBlockQueue) (t' : IoApp) : Prop where
  owner : t'.owner = t.owner
  objs : t'.objs = t.objs
  collector : t'.collector = some (Q.put v t.heap).1
  heap : t'.heap = (Q.put v t.heap).2

theorem pushMessage_gone {Q : MsMessageBlockQueue}
    (h : t.owner.onlineRegister.get (t.heap.msg v).conn = none) (hQ : t.collector = some Q) :
    Gone t v Q (t.pushMessage v) := by
  unfold pushMessage
  dsimp only
  rw [h, hQ]
  exact ⟨rfl, rfl, rfl, rfl⟩

end IoApp

namespace LocalRouter

variable {n : ℕ} {s s' : LocalRouter} {L L' : Lists} {i : ℕ} {a : Addr}

/-- The messages toward an IO thread name this thread. -/
theorem Carries.io_toward (h : Carries n s L) (ha : a ∈ L.toward s.heap i) :
    (s.heap.msg a).ioIndex = i := by
  rcases List.mem_append.mp ha with ha | ha
  · exact h.io i a ha
  · exact of_decide_eq_true (List.mem_filter.mp ha).2

/-- What stays in the lists when `a` is taken from the head of one. -/
theorem Carries.inside_pushed {l : List Addr} {b : Addr} (h : Carries n s L)
    (hl : L.pushing i = a :: l) (hb : (L.pushed i).Inside s.heap b) :
    L.Inside s.heap b ∧ b ≠ a := by
  obtain ⟨hself, hother⟩ := Lists.toward_pushed hl s.heap
  have ha : a ∈ L.toward s.heap i := hself ▸ List.mem_cons_self
  obtain ⟨j, hj⟩ := hb
  rcases eq_or_ne j i with rfl | hne
  · refine ⟨⟨j, hself ▸ List.mem_cons_of_mem _ hj⟩, ?_⟩
    have hnodup := h.nodup j
    rw [hself] at hnodup
    rintro rfl
    exact (List.nodup_cons.mp hnodup).1 hj
  · rw [hother j hne] at hj
    refine ⟨⟨j, hj⟩, ?_⟩
    rintro rfl
    exact hne ((h.io_toward hj).symm.trans (h.io_toward ha))

/-- The head of the list of an IO thread is taken. -/
theorem Carries.pushed {l : List Addr} (h : Carries n s L) (hl : L.pushing i = a :: l) :
    Carries n { s with pushing := Function.update s.pushing i (s.heap.next a) } (L.pushed i) := by
  obtain ⟨hself, hother⟩ := Lists.toward_pushed hl s.heap
  have hsub : ∀ j b, b ∈ (L.pushed i).toward s.heap j → b ∈ L.toward s.heap j := by
    intro j b hb
    rcases eq_or_ne j i with rfl | hne
    · rw [hself]
      exact List.mem_cons_of_mem _ hb
    · rwa [hother j hne] at hb
  refine ⟨h.queue, h.slots, h.slotOnce, h.slotNil, h.waiting, ?_, ?_, ?_, ?_, h.cluster⟩
  · intro j
    show Chain _ (Function.update s.pushing i _ j) (Function.update L.pushing i _ j)
    rcases eq_or_ne j i with rfl | hne
    · have hchain := h.pushing j
      rw [hl] at hchain
      rw [Function.update_self, Function.update_self, hl]
      exact hchain.2
    · rw [Function.update_of_ne hne, Function.update_of_ne hne]
      exact h.pushing j
  · intro j
    rcases eq_or_ne j i with rfl | hne
    · have hnodup := h.nodup j
      rw [hself] at hnodup
      exact (List.nodup_cons.mp hnodup).2
    · rw [hother j hne]
      exact h.nodup j
  · intro j b hb
    exact h.io_toward (hsub j b (List.mem_append_left _ hb))
  · intro j b hb
    exact h.bound j b (hsub j b hb)

/-- What a push has to keep. -/
theorem Inv.pushed {l : List Addr} (h : Inv n s L) (hl : L.pushing i = a :: l)
    (hpushing : s'.pushing = Function.update s.pushing i (s.heap.next a))
    (hsame : s'.queue = s.queue ∧ s'.slots = s.slots ∧ s'.msgQueue = s.msgQueue ∧
      s'.entered = s.entered)
    (hleft : ∃ found, s'.left = Function.update s.left i (s.left i ++ [((a, s.heap.msg a), found)]))
    (hbrk : s'.heap.brk = s.heap.brk) (hmsg : s'.heap.msg = s.heap.msg) (hsound : s'.Sound)
    (hkeep : ∀ b ≠ a, s.Free b → s'.heap.next b = s.heap.next b ∧ s'.Free b) :
    Inv n s' (L.pushed i) := by
  have hinside : ∀ b, (L.pushed i).Inside s.heap b → b ≠ a ∧ s.Free b := by
    intro b hb
    obtain ⟨hin, hne⟩ := h.carries.inside_pushed hl hb
    exact ⟨hne, h.free b hin⟩
  obtain ⟨hself, hother⟩ := Lists.toward_pushed hl s.heap
  have htoward : ∀ j, (L.pushed i).toward s'.heap j = (L.pushed i).toward s.heap j :=
    Lists.toward_congr fun b _ => by rw [hmsg]
  refine ⟨(h.carries.pushed hl).frame hsame.1 hsame.2.1 hsame.2.2.1 hpushing hbrk.ge ?_ ?_, hsound,
    ?_, ?_⟩
  · intro b hb
    obtain ⟨hne, hfree⟩ := hinside b hb
    exact (hkeep b hne hfree).1
  · intro b _
    rw [hmsg]
  · rintro b ⟨j, hb⟩
    rw [htoward] at hb
    obtain ⟨hne, hfree⟩ := hinside b ⟨j, hb⟩
    exact (hkeep b hne hfree).2
  · intro j
    obtain ⟨found, hfound⟩ := hleft
    rw [hsame.2.2.2, hfound, htoward, hmsg, h.conserved j]
    rcases eq_or_ne j i with rfl | hne
    · rw [Function.update_self, hself]
      simp
    · rw [Function.update_of_ne hne, hother j hne]

/-- IO thread `i` about to push `a`. -/
def pusher (s : LocalRouter) (i : ℕ) (a : Addr) : IoApp :=
  { s with heap := s.heap.setNext a none }.thread i

/-- The state after `a` has been pushed. -/
theorem Carries.step_push {l : List Addr} (h : Carries n s L) (hl : L.pushing i = a :: l)
    (hstep : step n s (.push i) = some s') :
    s' = { s with
      ios := Function.update s.ios i ((s.pusher i a).pushMessage a)
      heap := ((s.pusher i a).pushMessage a).heap
      collector := ((s.pusher i a).pushMessage a).collector.getD s.collector
      pushing := Function.update s.pushing i (s.heap.next a)
      left := Function.update s.left i (s.left i ++
        [((a, s.heap.msg a), (s.ios i).owner.onlineRegister.get (s.heap.msg a).conn)]) } := by
  have hhead : s.pushing i = some a := by
    rw [Chain.head_eq (h.pushing i), hl]
    rfl
  dsimp only [step] at hstep
  rw [pushNext, hhead, Option.map_some] at hstep
  exact (Option.some.inj hstep).symm

/-- **A message goes to the end of the push list of its connection.** -/
theorem Inv.push_found {l : List Addr} {o : Obj} (h : Inv n s L) (hl : L.pushing i = a :: l)
    (hreg : (s.ios i).owner.onlineRegister.get (s.heap.msg a).conn = some o)
    (hstep : step n s (.push i) = some s') : Inv n s' (L.pushed i) := by
  have hfound := IoApp.pushMessage_found (t := s.pusher i a) (v := a) hreg
  set t := (s.pusher i a).pushMessage a with ht
  obtain rfl := h.carries.step_push hl hstep
  have htails : ∀ j c o' d, (Function.update s.ios i t j).owner.onlineRegister.get c = some o' →
      ((Function.update s.ios i t j).objs o').2.pushBuffer.links.tail = some d →
      d = s.heap.pdBrk ∨ ((s.ios j).owner.onlineRegister.get c = some o' ∧
        ((s.ios j).objs o').2.pushBuffer.links.tail = some d) := by
    intro j c o' d hget hd
    rcases eq_or_ne j i with rfl | hne
    · rw [Function.update_self] at hget hd
      exact hfound.tail hget hd
    · rw [Function.update_of_ne hne] at hget hd
      exact Or.inr ⟨hget, hd⟩
  have hcollector : t.collector.getD s.collector = s.collector := by
    rw [hfound.collector]
    rfl
  refine h.pushed hl rfl ⟨rfl, rfl, rfl, rfl⟩ ⟨_, rfl⟩ ?_ ?_ ?_ ?_
  · show t.heap.brk = _
    rw [hfound.heap]
    rfl
  · show t.heap.msg = _
    rw [hfound.heap]
    rfl
  · intro j c o' d hget hd
    have hpdBrk : t.heap.pdBrk = s.heap.pdBrk + 1 := by
      rw [hfound.heap]
      rfl
    show d < t.heap.pdBrk
    rw [hpdBrk]
    rcases htails j c o' d hget hd with rfl | ⟨hget, hd⟩
    · exact Nat.lt_succ_self _
    · exact Nat.lt_succ_of_lt (h.sound j c o' d hget hd)
  · intro b hb hfree
    refine ⟨?_, ?_, ?_⟩
    · refine (hfound.next_of_ne hb ?_).trans (Function.update_of_ne hb ..)
      intro d hd
      exact ⟨h.sound i _ o d hreg hd, hfree.push i _ o d hreg hd⟩
    · show (t.collector.getD s.collector).links.tail ≠ some b
      rw [hcollector]
      exact hfree.collector
    · intro j c o' d hget hd
      show (t.heap.pd d).msg ≠ b
      rcases htails j c o' d hget hd with rfl | ⟨hget, hd⟩
      · have hnew : (t.heap.pd s.heap.pdBrk).msg = a := hfound.pd_new
        rw [hnew]
        exact hb.symm
      · rw [hfound.pd_of_lt (h.sound j c o' d hget hd)]
        exact hfree.push j c o' d hget hd

/-- **A message whose connection is gone goes to the collector.** -/
theorem Inv.push_gone {l : List Addr} (h : Inv n s L) (hl : L.pushing i = a :: l)
    (hreg : (s.ios i).owner.onlineRegister.get (s.heap.msg a).conn = none)
    (hstep : step n s (.push i) = some s') : Inv n s' (L.pushed i) := by
  have hgone := IoApp.pushMessage_gone (t := s.pusher i a) (v := a) hreg rfl
  set t := (s.pusher i a).pushMessage a with ht
  obtain rfl := h.carries.step_push hl hstep
  have hios : ∀ j, (Function.update s.ios i t j).owner = (s.ios j).owner ∧
      (Function.update s.ios i t j).objs = (s.ios j).objs := by
    intro j
    rcases eq_or_ne j i with rfl | hne
    · rw [Function.update_self]
      exact ⟨hgone.owner, hgone.objs⟩
    · rw [Function.update_of_ne hne]
      exact ⟨rfl, rfl⟩
  have hheap : t.heap = (s.collector.put a (s.heap.setNext a none)).2 := hgone.heap
  have hcollector : t.collector.getD s.collector =
      (s.collector.put a (s.heap.setNext a none)).1 := by
    rw [hgone.collector]
    rfl
  refine h.pushed hl rfl ⟨rfl, rfl, rfl, rfl⟩ ⟨_, rfl⟩ ?_ ?_ ?_ ?_
  · show t.heap.brk = _
    rw [hheap]
    rfl
  · show t.heap.msg = _
    rw [hheap]
    rfl
  · intro j c o d hget hd
    show d < t.heap.pdBrk
    rw [hheap]
    exact h.sound j c o d ((hios j).1 ▸ hget) ((hios j).2 ▸ hd)
  · intro b hb hfree
    refine ⟨?_, ?_, ?_⟩
    · show t.heap.next b = _
      rw [hheap]
      exact (MsMessageBlockQueue.put_next_of_ne hb hfree.collector).trans
        (Function.update_of_ne hb ..)
    · show (t.collector.getD s.collector).links.tail ≠ some b
      rw [hcollector]
      intro hb'
      exact hb (Option.some.inj ((Links.attach_tail _ _ _ _).symm.trans hb')).symm
    · intro j c o d hget hd
      show (t.heap.pd d).msg ≠ b
      rw [hheap]
      exact hfree.push j c o d ((hios j).1 ▸ hget) ((hios j).2 ▸ hd)

theorem Inv.push (h : Inv n s L) (hstep : step n s (.push i) = some s') : ∃ L', Inv n s' L' := by
  rcases hl : L.pushing i with - | ⟨a, l⟩
  · have hhead : s.pushing i = none := by
      rw [Chain.head_eq (h.carries.pushing i), hl]
      rfl
    dsimp only [step] at hstep
    rw [pushNext, hhead] at hstep
    cases hstep
  · rcases hreg : (s.ios i).owner.onlineRegister.get (s.heap.msg a).conn with - | o
    · exact ⟨_, h.push_gone hl hreg hstep⟩
    · exact ⟨_, h.push_found hl hreg hstep⟩

theorem Inv.outside {ios : ℕ → IoApp} {H : Heap} {collector : MsMessageBlockQueue}
    (h : Inv n s L) (howned : Owned n s (.outside ios H collector)) :
    Inv n { s with ios := ios, heap := H, collector := collector } L := by
  obtain ⟨hbrk, hsound, hkeep⟩ := howned
  have hkeep := hkeep L h.carries
  have htoward : ∀ i, L.toward H i = L.toward s.heap i :=
    Lists.toward_congr fun a ha => (hkeep a (Lists.inside_of_queue ha)).2.1
  refine ⟨h.carries.frame rfl rfl rfl rfl hbrk (fun a ha => (hkeep a ha).1)
    fun a ha => (hkeep a ha).2.1, hsound, ?_, ?_⟩
  · rintro a ⟨i, ha⟩
    rw [htoward] at ha
    exact (hkeep a ⟨i, ha⟩).2.2
  · intro i
    show _ = _ ++ (L.toward H i).map fun a => (a, H.msg a)
    rw [htoward, h.conserved i]
    congr 1
    refine List.map_congr_left ?_
    intro a ha
    rw [(hkeep a ⟨i, ha⟩).2.1]

/-- **Every step keeps the invariant.** -/
theorem Inv.step {e : Event} (h : Inv n s L) (howned : Owned n s e)
    (hstep : step n s e = some s') : ∃ L', Inv n s' L' := by
  cases e with
  | route msg => exact h.route howned hstep
  | take => exact h.take hstep
  | dispatch => exact h.dispatch hstep
  | pushTake i => exact h.pushTake hstep
  | push i => exact h.push hstep
  | outside ios H collector =>
    obtain rfl := Option.some.inj hstep
    exact ⟨L, h.outside howned⟩

/-! ### Where a message goes -/

/-- What happens when IO thread `i` pushes `a`: the message goes to the end of
the push list of the connection that it names, or to the end of the collector's
queue if that connection is gone. -/
def Delivered (s : LocalRouter) (i : ℕ) (a : Addr) (s' : LocalRouter) : Prop :=
  (∃ o, (s.ios i).owner.onlineRegister.get (s.heap.msg a).conn = some o ∧
    s'.left i = s.left i ++ [((a, s.heap.msg a), some o)] ∧
    ∀ ds, ((s.ios i).objs o).2.pushBuffer.Rep s.heap ds → a ∉ ds.map (IoPushList.msgOf s.heap) →
      ∃ d, ((s'.ios i).objs o).2.pushBuffer.Rep s'.heap (ds ++ [d]) ∧
        IoPushList.msgOf s'.heap d = a) ∨
  ((s.ios i).owner.onlineRegister.get (s.heap.msg a).conn = none ∧
    s'.left i = s.left i ++ [((a, s.heap.msg a), none)] ∧
    ∀ q, s.collector.Rep s.heap q → a ∉ q → s'.collector.Rep s'.heap (q ++ [a]))

/-- A message leaves the router when it is pushed, and at no other step. -/
def Leaves (n : ℕ) (s : LocalRouter) (e : Event) : Prop :=
  ∀ s', step n s e = some s' →
    match e with
    | .push i => (∃ a, s.pushing i = some a ∧ Delivered s i a s') ∧ ∀ j ≠ i, s'.left j = s.left j
    | _ => s'.left = s.left

/-- The push list with a message behind its own. -/
theorem rep_put_newDatum {P : IoPushList} {H : Heap} {ds : List Addr} (h : P.Rep H ds)
    (ha : a ∉ ds.map (IoPushList.msgOf H)) :
    (P.put H.pdBrk ((H.setNext a none).newDatum a)).1.Rep
        (P.put H.pdBrk ((H.setNext a none).newDatum a)).2 (ds ++ [H.pdBrk]) ∧
      IoPushList.msgOf (P.put H.pdBrk ((H.setNext a none).newDatum a)).2 H.pdBrk = a := by
  have hne : ∀ d ∈ ds, d ≠ H.pdBrk := fun d hd => (h.bound d hd).ne
  have hmsg : ∀ d ∈ ds, IoPushList.msgOf ((H.setNext a none).newDatum a) d =
      IoPushList.msgOf H d :=
    fun d hd => congrArg IoPushData.msg (Function.update_of_ne (hne d hd) ..)
  have hnew : IoPushList.msgOf ((H.setNext a none).newDatum a) H.pdBrk = a := by
    show (Function.update H.pd H.pdBrk _ H.pdBrk).msg = a
    rw [Function.update_self]
  have hrep : P.Rep ((H.setNext a none).newDatum a) ds := by
    refine h.congr ?_ hmsg ?_ (Nat.le_succ _)
    · exact fun d hd => Function.update_of_ne (hne d hd) ..
    · intro d hd
      refine Function.update_of_ne ?_ ..
      rintro rfl
      exact ha (List.mem_map_of_mem hd)
  refine ⟨hrep.put (fun hd => hne _ hd rfl) ?_ (Nat.lt_succ_self _), hnew⟩
  rw [hnew, List.map_congr_left hmsg]
  exact ha

/-- **A message leaves the router into the push list of its connection**, or to
the collector when the connection is gone. -/
theorem pushNext_delivered (h : s.pushNext i = some s') :
    (∃ a, s.pushing i = some a ∧ Delivered s i a s') ∧ ∀ j ≠ i, s'.left j = s.left j := by
  obtain ⟨a, ha, rfl⟩ := Option.map_eq_some_iff.mp h
  refine ⟨⟨a, ha, ?_⟩, fun j hj => Function.update_of_ne hj ..⟩
  rcases hreg : (s.ios i).owner.onlineRegister.get (s.heap.msg a).conn with - | o
  · have hgone := IoApp.pushMessage_gone (t := s.pusher i a) (v := a) hreg rfl
    refine Or.inr ⟨hreg, ?_, ?_⟩
    · exact (Function.update_self ..).trans (by rw [← hreg]; rfl)
    · intro q hq haq
      show MsMessageBlockQueue.Rep (((s.pusher i a).pushMessage a).collector.getD s.collector)
        ((s.pusher i a).pushMessage a).heap (q ++ [a])
      rw [hgone.collector, hgone.heap]
      refine MsMessageBlockQueue.Rep.put (hq.congr ?_) haq
      intro b hb
      refine Function.update_of_ne ?_ ..
      rintro rfl
      exact haq hb
  · have hfound := IoApp.pushMessage_found (t := s.pusher i a) (v := a) hreg
    refine Or.inl ⟨o, hreg, ?_, ?_⟩
    · exact (Function.update_self ..).trans (by rw [← hreg]; rfl)
    · intro ds hds hmem
      obtain ⟨hrep, hmsg⟩ := rep_put_newDatum hds hmem
      refine ⟨s.heap.pdBrk, ?_, ?_⟩
      · show IoPushList.Rep ((Function.update s.ios i ((s.pusher i a).pushMessage a) i).objs
          o).2.pushBuffer ((s.pusher i a).pushMessage a).heap _
        rw [Function.update_self, hfound.list, hfound.heap]
        exact hrep
      · show IoPushList.msgOf ((s.pusher i a).pushMessage a).heap _ = a
        rw [hfound.heap]
        exact hmsg

theorem leaves (n : ℕ) (s : LocalRouter) (e : Event) : Leaves n s e := by
  intro s' hstep
  cases e with
  | push i => exact pushNext_delivered hstep
  | route msg =>
    obtain rfl := Option.some.inj hstep
    rfl
  | take =>
    dsimp only [step] at hstep
    split at hstep
    · obtain ⟨r, -, hr⟩ := Option.bind_eq_some_iff.mp hstep
      obtain ⟨sorted, -, rfl⟩ := Option.map_eq_some_iff.mp hr
      rfl
    · cases hstep
  | dispatch =>
    dsimp only [step] at hstep
    split at hstep
    · cases hstep
    · obtain rfl := Option.some.inj hstep
      rfl
  | pushTake i =>
    dsimp only [step] at hstep
    split at hstep
    · obtain rfl := Option.some.inj hstep
      rfl
    · cases hstep
  | outside ios H collector =>
    obtain rfl := Option.some.inj hstep
    rfl

/-! ### Every run -/

/-- No message has been routed yet. -/
structure Idle (s : LocalRouter) : Prop where
  queue : s.queue = MsMessageBlockQueue.empty
  slots : s.slots = []
  msgQueue : ∀ i, s.msgQueue i = MsMessageQueue.empty
  pushing : ∀ i, s.pushing i = none
  entered : s.entered = []
  left : ∀ i, s.left i = []
  sound : s.Sound

/-- The messages put into the push list of connection `c` of IO thread `i`. -/
def putInto (s : LocalRouter) (i c : ℕ) : List (Addr × IMessage) :=
  ((s.left i).filter fun e => e.2.isSome ∧ e.1.2.conn = c).map Prod.fst

/-- Nothing is lost, doubled or overtaken. -/
structure Conserved (n : ℕ) (s : LocalRouter) (L : Lists) : Prop where
  /-- A message on its way is in one list, that of its IO thread if it has been
  sorted. -/
  carries : Carries n s L
  /-- What has entered has left once, or is on its way. -/
  once : ∀ i, (s.entered.filter fun e => e.2.ioIndex = i) =
    (s.left i).map Prod.fst ++ (L.toward s.heap i).map fun a => (a, s.heap.msg a)
  /-- A connection gets its messages in the order in which they entered. -/
  order : ∀ i c, (s.putInto i c).Sublist s.entered
  /-- A batch that has been taken is sorted: every `_io` is in range. -/
  serves : s.slots = [] → s.queue.listSize ≠ 0 → (step n s .take).isSome

theorem Inv.conserved_lists (h : Inv n s L) : Conserved n s L := by
  refine ⟨h.carries, h.conserved, ?_, ?_⟩
  · intro i c
    have hleft : ((s.left i).map Prod.fst).Sublist s.entered := by
      have hsub := List.filter_sublist (p := fun e => decide (e.2.ioIndex = i)) (l := s.entered)
      rw [h.conserved i] at hsub
      exact (List.sublist_append_left _ _).trans hsub
    exact (List.filter_sublist.map Prod.fst).trans hleft
  · intro hslots hsize
    obtain ⟨s', hs', -⟩ := h.carries.take hslots hsize
    exact Option.isSome_of_eq_some hs'

theorem Idle.inv (h : Idle s) : Inv n s ⟨[], fun _ => [], fun _ => [], fun _ => []⟩ := by
  refine ⟨⟨?_, ?_, ?_, fun _ _ => rfl, ?_, ?_, fun _ => List.nodup_nil, ?_, ?_, ?_⟩, h.sound, ?_,
    ?_⟩
  · rw [h.queue]
    exact MsMessageBlockQueue.rep_empty
  · rw [h.slots]
    rintro _ ⟨⟩
  · rw [h.slots]
    exact List.nodup_nil
  · intro i
    rw [h.msgQueue i]
    exact Links.rep_empty
  · intro i
    exact Chain.nil_iff.mpr (h.pushing i)
  · rintro _ _ ⟨⟩
  · rintro _ _ ⟨⟩
  · rintro _ ⟨⟩
  · rintro _ ⟨_, ⟨⟩⟩
  · intro i
    rw [h.entered, h.left i]
    rfl

/-- **Order and conservation.**  In every interleaving of `route` calls with
batches of the router and pushes of the IO threads, a routed message is in one
list until it leaves; it leaves once, into the push list of its connection or
to the collector; and for each connection the order is that of the router's
queue. -/
theorem always_conserved (n : ℕ) {s : LocalRouter} (h : Idle s) (es : List Event)
    (hes : Guarded (step n) (Owned n) s es) :
    Always (step n) (fun s => ∃ L, Conserved n s L) s es ∧ Guarded (step n) (Leaves n) s es := by
  refine ⟨?_, Guarded.of_forall fun e _ s => leaves n s e⟩
  refine Always.of_guarded (I := fun s => ∃ L, Inv n s L) ?_ ?_ ⟨_, h.inv⟩ hes
  · rintro s e s' ⟨L, hL⟩ hg hstep
    exact hL.step hg hstep
  · rintro s ⟨L, hL⟩
    exact ⟨L, hL.conserved_lists⟩

theorem Idle.not_inside (h : Idle s) (hL : Carries n s L) : ¬ L.Inside s.heap a := by
  have hqueue : L.queue = [] := by
    have hrep := hL.queue.2
    rw [h.queue] at hrep
    exact List.length_eq_zero_iff.mp hrep.symm
  have hwaiting : ∀ i, L.waiting i = [] := by
    intro i
    have hhead := (hL.waiting i).head_eq
    rw [h.msgQueue i] at hhead
    exact List.head?_eq_none_iff.mp hhead.symm
  have hpushing : ∀ i, L.pushing i = [] := by
    intro i
    have hhead := Chain.head_eq (hL.pushing i)
    rw [h.pushing i] at hhead
    exact List.head?_eq_none_iff.mp hhead.symm
  have hslot : ∀ i, L.slot i = [] := fun i => hL.slotNil i (by simp [h.slots])
  rintro ⟨i, hi⟩
  simp [Lists.toward, Lists.sent, hqueue, hwaiting, hpushing, hslot] at hi

/-- Two IO threads with one connection each, and a list of three messages, of which the
second is for the second thread. -/
def threeRoutes : LocalRouter where
  ios i := { IoApp.new i (1, 1, 1) Heap.empty none (fun _ => 0) with
    owner := ⟨1, [(5 + i, 0)], ConnectionCache.new⟩, brk := 1 }
  heap := { Heap.empty with
    msg := fun a => { createIMessageOfLen 0 with
      io := if a = 1 then 1 else 0, conn := if a = 1 then 6 else 5 }
    next := fun a => if a < 2 then some (a + 1) else none
    brk := 3 }
  collector := MsMessageBlockQueue.empty
  queue := MsMessageBlockQueue.empty
  slots := []
  msgQueue _ := MsMessageQueue.empty
  pushing _ := none
  entered := []
  left _ := []

/-- The list is routed, sorted and dispatched, and the threads push their messages in
turn. -/
def threeRouted : List Event :=
  [.route 0, .take, .dispatch, .dispatch, .pushTake 0, .push 0, .pushTake 1, .push 1, .push 0]

theorem always_conserved_three :
    Always (step 2) (fun s => ∃ L, Conserved 2 s L) threeRoutes threeRouted ∧
      (runEvents (step 2) threeRoutes threeRouted).map
        (fun s => ((s.putInto 0 5).map Prod.fst, (s.putInto 1 6).map Prod.fst)) =
          some ([0, 2], [1]) := by
  have hidle : Idle threeRoutes :=
    ⟨rfl, rfl, fun _ => rfl, fun _ => rfl, rfl, fun _ => rfl, by rintro i c o t - ⟨⟩⟩
  refine ⟨(always_conserved 2 hidle _ ?_).1, by decide +kernel⟩
  intro s' _
  refine ⟨?_, ?_⟩
  · intro L hL
    refine ⟨[1, 2], ⟨rfl, rfl, rfl, rfl⟩, ?_⟩
    intro a ha
    have hmsg : a < 3 ∧ (threeRoutes.heap.msg a).ioIndex < 2 := by
      simp only [List.mem_cons, List.not_mem_nil, or_false] at ha
      rcases ha with rfl | rfl | rfl <;> decide
    refine ⟨hmsg.1, hidle.not_inside hL, hmsg.2, by rintro ⟨⟩, ?_⟩
    rintro i c o t - ⟨⟩
  · refine Guarded.of_forall ?_
    intro e he s
    simp only [List.mem_cons, List.not_mem_nil, or_false] at he
    rcases he with rfl | rfl | rfl | rfl | rfl | rfl | rfl | rfl <;> trivial

end LocalRouter

end Xkim
