/-
MsgHandler/Erasure.lean

When the registration of a user is erased.

`getOrUnset` erases the channel of a user when the collector asks for it with
the id of a connection that is not older.  The collector takes this id from the
messages that came back: it is the greatest `_conn` of a batch.  The idea is
that such a message was sent to the channel of the user and did not arrive, so
that the connection of the channel must be closed.

But messages come to the collector from four places.  `IoApp` gives it those
that found their connection closed, or were pending when it closed;
`ImMessageProcessor` gives it a message of a user whose dispatch failed, while
the connection it came from is open; the broker gives it messages for users that
were not registered, which name no connection: their `_conn` is still
`uint64_t(-1)`.

An `Exchange` is all of this together: the register table, the open
connections, and the messages on their way, pending on a connection, or with the
collector.  Messages are values here, and their lists are lists; how the code
links them in memory is in other modules, and the two are connected below.

Messages that the collector routes again are released as well, since `failureRoute`
returns -1 on every path (see `collect_single_owner_iff`).  They are in a place of
their own, `released`: an IO thread that takes one of them reads freed memory.
-/
import MsgHandler.Broker
import MsgHandler.Collector

namespace Xkim

/-! ### What the collector does with a batch -/

/-- `max_item->_conn` of a list that starts with `msg`. -/
def maxConn (msg : IMessage) (l : List IMessage) : ℕ :=
  l.foldl (fun c item => if item.conn > c then item.conn else c) msg.conn

/-- `ImPendingMessageCollectorCore::collect`: the table, and the messages that
are routed again.  Whether or not they are, all messages are released. -/
def recollect (T : ImUserChannelRegisterTableLocal) :
    List IMessage → ImUserChannelRegisterTableLocal × List IMessage
  | [] => (T, [])
  | msg :: l =>
    let r := T.getOrUnset msg.uid (maxConn msg l)
    (r.2, if r.1.uid ≠ -1 then (msg :: l).map (IMessage.setChannel r.1.io (toInt32 r.1.conn))
      else [])

/-- See `MsMessageCollector.add`. -/
def addMessage (msg : IMessage) : List (ℤ × List IMessage) → List (ℤ × List IMessage)
  | [] => [(msg.uid, [msg])]
  | (u, l) :: map => if u = msg.uid then (u, l ++ [msg]) :: map else (u, l) :: addMessage msg map

/-- The messages of a batch by user, as `MsMessageCollector::Impl::run` groups
them. -/
def groupMessages (l : List IMessage) : List (ℤ × List IMessage) :=
  l.foldl (fun map msg => addMessage msg map) []

/-- The lists hold messages of `l`, each under its user. -/
def Grouped (l : List IMessage) (map : List (ℤ × List IMessage)) : Prop :=
  ∀ e ∈ map, ∀ m ∈ e.2, m.uid = e.1 ∧ m ∈ l

theorem Grouped.addMessage {l : List IMessage} {map : List (ℤ × List IMessage)} {msg : IMessage}
    (h : Grouped l map) (hmsg : msg ∈ l) : Grouped l (addMessage msg map) := by
  induction map with
  | nil =>
    intro e he m hm
    obtain rfl := List.mem_singleton.mp he
    obtain rfl := List.mem_singleton.mp hm
    exact ⟨rfl, hmsg⟩
  | cons e₀ map ih =>
    obtain ⟨u, old⟩ := e₀
    have hrest : Grouped l map := fun e he => h e (List.mem_cons_of_mem _ he)
    have hold := h (u, old) List.mem_cons_self
    intro e he m hm
    dsimp only [Xkim.addMessage] at he
    split at he
    · rename_i hu
      rcases List.mem_cons.mp he with rfl | he
      · rcases List.mem_append.mp hm with hm | hm
        · exact hold m hm
        · obtain rfl := List.mem_singleton.mp hm
          exact ⟨hu.symm, hmsg⟩
      · exact hrest e he m hm
    · rcases List.mem_cons.mp he with rfl | he
      · exact hold m hm
      · exact ih hrest e he m hm

theorem groupMessages_grouped (l : List IMessage) : Grouped l (groupMessages l) := by
  have hloop : ∀ (rest : List IMessage) (map : List (ℤ × List IMessage)), (∀ m ∈ rest, m ∈ l) →
      Grouped l map → Grouped l (rest.foldl (fun map msg => addMessage msg map) map) := by
    intro rest
    induction rest with
    | nil => exact fun _ _ h => h
    | cons msg rest ih =>
      intro map hrest h
      exact ih _ (fun m hm => hrest m (List.mem_cons_of_mem _ hm))
        (h.addMessage (hrest msg List.mem_cons_self))
  exact hloop l [] (fun _ hm => hm) (fun _ he => nomatch he)

/-! ### The batch in memory -/

/-- The id of the newest connection is that of `max_item`. -/
theorem maxItem_conn (H : Heap) (v : Addr) (l : List Addr) :
    (H.msg (maxItem H v l)).conn = maxConn (H.msg v) (l.map H.msg) := by
  induction l generalizing v with
  | nil => rfl
  | cons a l ih =>
    unfold maxItem maxConn
    rw [List.map_cons, List.foldl_cons, List.foldl_cons]
    split
    · exact ih a
    · exact ih v

/-- **`collect` in memory is `recollect`**: the table after it, and the messages
that it adds to the queue of the local router.  All messages are released. -/
theorem Collected.collect_recollect {R : ImUserMessageRouter} {H : Heap} {v : Addr}
    {l q : List Addr} (h : Collected R H v l q) :
    (ImPendingMessageCollectorCore.collect R v H).1.registerTableLocal =
        (recollect R.registerTableLocal ((v :: l).map H.msg)).1 ∧
      (ImPendingMessageCollectorCore.collect R v H).2.released = H.released ++ v :: l ∧
      ∃ l', (ImPendingMessageCollectorCore.collect R v H).1.localQueue.Rep
          (ImPendingMessageCollectorCore.collect R v H).2 (q ++ l') ∧
        l'.map (ImPendingMessageCollectorCore.collect R v H).2.msg =
          (recollect R.registerTableLocal ((v :: l).map H.msg)).2 := by
  rw [List.map_cons, recollect, ← maxItem_conn]
  by_cases hnewer : ∃ ch,
      R.registerTableLocal.Newer (H.msg v).uid (H.msg (maxItem H v l)).conn ch
  · obtain ⟨ch, hch⟩ := hnewer
    have hreleased := (h.collect_newer hch).2
    have hset := h.setChannel ch.io (toInt32 ch.conn)
    rw [ImUserChannelRegisterTableLocal.getOrUnset_of_newer hch]
    rw [h.collect_eq (h.failureRoute_newer hch)
      (Heap.chainFrom_eq hset.putList_chain hset.bound)] at hreleased ⊢
    refine ⟨rfl, hreleased, v :: l, hset.queue.putList hset.chain hset.apart hset.bound, ?_⟩
    dsimp only
    rw [if_pos hch.2.1]
    show (v :: l).map ((v :: l).foldl (Heap.setChannel ch.io (toInt32 ch.conn)) H).msg = _
    rw [Heap.foldl_setChannel, ← List.map_cons, List.map_map]
    refine List.map_congr_left ?_
    intro a ha
    exact if_pos ha
  · rw [h.collect_eq (h.failureRoute_not_newer hnewer) (Heap.chainFrom_eq h.chain h.bound)]
    refine ⟨rfl, rfl, [], ?_, ?_⟩
    · rw [List.append_nil]
      exact h.queue
    · rw [if_neg (not_not.mpr (ImUserChannelRegisterTableLocal.getOrUnset_of_not_newer hnewer))]
      rfl

/-- `addMessage` on addresses. -/
def addAddr (uid : ℤ) (a : Addr) : List (ℤ × List Addr) → List (ℤ × List Addr)
  | [] => [(uid, [a])]
  | (u, l) :: map => if u = uid then (u, l ++ [a]) :: map else (u, l) :: addAddr uid a map

theorem addAddr_perm (uid : ℤ) (a : Addr) (ls : List (ℤ × List Addr)) :
    ((addAddr uid a ls).map Prod.snd).flatten.Perm (a :: (ls.map Prod.snd).flatten) := by
  induction ls with
  | nil => exact List.Perm.refl _
  | cons f ls ih =>
    obtain ⟨u, l⟩ := f
    dsimp only [addAddr]
    split
    · simp only [List.map_cons, List.flatten_cons, List.append_assoc, List.singleton_append]
      exact List.perm_middle
    · simp only [List.map_cons, List.flatten_cons]
      exact (ih.append_left l).trans List.perm_middle

/-- The messages at the addresses. -/
def valuesOf (H : Heap) (ls : List (ℤ × List Addr)) : List (ℤ × List IMessage) :=
  ls.map fun f => (f.1, f.2.map H.msg)

theorem valuesOf_addAddr (H : Heap) (a : Addr) (ls : List (ℤ × List Addr)) :
    valuesOf H (addAddr (H.msg a).uid a ls) = addMessage (H.msg a) (valuesOf H ls) := by
  induction ls with
  | nil => rfl
  | cons f ls ih =>
    obtain ⟨u, l⟩ := f
    by_cases hu : u = (H.msg a).uid
    · simp [valuesOf, addAddr, addMessage, hu]
    · simp only [valuesOf, addAddr, addMessage, hu, if_false, List.map_cons] at ih ⊢
      rw [ih]

/-- The lists of `map` hold the addresses of `ls`, each under its user. -/
def Linked (next : Addr → Option Addr) (map : List (ℤ × Links Addr)) (ls : List (ℤ × List Addr)) :
    Prop :=
  List.Forall₂ (fun e f => e.1 = f.1 ∧ Links.Rep next e.2 f.2) map ls

theorem Linked.congr {next next' : Addr → Option Addr} {map : List (ℤ × Links Addr)}
    {ls : List (ℤ × List Addr)} (h : Linked next map ls)
    (hnext : ∀ a ∈ (ls.map Prod.snd).flatten, next' a = next a) : Linked next' map ls := by
  induction h with
  | nil => exact List.Forall₂.nil
  | cons he _ ih =>
    refine List.Forall₂.cons ⟨he.1, he.2.congr ?_⟩ (ih ?_)
    · exact fun a ha => hnext a (List.mem_append_left _ ha)
    · exact fun a ha => hnext a (List.mem_append_right _ ha)

/-- **A message is hung behind those of its user**, and only links of the lists
are written. -/
theorem Linked.add {uid : ℤ} {v : Addr} {H : Heap} {map : List (ℤ × Links Addr)}
    {ls : List (ℤ × List Addr)} (h : Linked H.next map ls)
    (hnodup : (ls.map Prod.snd).flatten.Nodup) (hv : v ∉ (ls.map Prod.snd).flatten)
    (hlast : H.next v = none) :
    Linked (MsMessageCollector.add uid v H map).2.next (MsMessageCollector.add uid v H map).1
        (addAddr uid v ls) ∧
      ∀ a ∉ (ls.map Prod.snd).flatten,
        (MsMessageCollector.add uid v H map).2.next a = H.next a := by
  have hsingle : Chain H.next (some v) [v] := ⟨rfl, hlast⟩
  induction h with
  | nil => exact ⟨List.Forall₂.cons ⟨rfl, hsingle, rfl⟩ List.Forall₂.nil, fun _ _ => rfl⟩
  | @cons e f map ls he hrest ih =>
    obtain ⟨u, target⟩ := e
    obtain ⟨_, l⟩ := f
    obtain ⟨rfl, hrep⟩ := he
    simp only [List.map_cons, List.flatten_cons, List.mem_append, not_or] at hv hnodup ⊢
    obtain ⟨-, hls, hapart⟩ := List.nodup_append.mp hnodup
    dsimp only [MsMessageCollector.add, addAddr]
    by_cases hu : u = uid
    · -- this is the user
      rw [if_pos hu, if_pos hu]
      have hother : ∀ a ∉ l, (target.attach H.next v v).1 a = H.next a :=
        fun a ha => Links.attach_of_not_mem hrep ha
      refine ⟨List.Forall₂.cons ⟨rfl, hrep.attach hsingle rfl ?_⟩ ?_, fun a ha => hother a ha.1⟩
      · intro a ha hav
        rw [List.mem_singleton.mp hav] at ha
        exact hv.1 ha
      · refine Linked.congr hrest ?_
        exact fun a ha => hother a fun hal => hapart a hal a ha rfl
    · -- the user is further down
      rw [if_neg hu, if_neg hu]
      obtain ⟨htail, hframe⟩ := ih hls hv.2
      refine ⟨List.Forall₂.cons ⟨rfl, hrep.congr ?_⟩ htail, fun a ha => hframe a ha.2⟩
      exact fun a ha => hframe a fun hals => hapart a ha a hals rfl

/-- **One turn of the loop**: the first message of the rest leaves it, its link is
cleared, and it is hung behind the messages of its user. -/
theorem Linked.turn {v : Addr} {l : List Addr} {H : Heap} {map : List (ℤ × Links Addr)}
    {ls : List (ℤ × List Addr)} {r : List (ℤ × Links Addr) × Heap} (h : Linked H.next map ls)
    (hl : Chain H.next (some v) (v :: l)) (hnodup : (ls.map Prod.snd).flatten.Nodup)
    (hapart : ∀ a ∈ v :: l, a ∉ (ls.map Prod.snd).flatten)
    (hr : MsMessageCollector.add (H.msg v).uid v (H.setNext v none) map = r) :
    Linked r.2.next r.1 (addAddr (H.msg v).uid v ls) ∧ Chain r.2.next (H.next v) l ∧
      ∀ a, a ≠ v → a ∉ (ls.map Prod.snd).flatten → r.2.next a = H.next a := by
  have hvl : v ∉ l := (List.nodup_cons.mp (Chain.nodup hl)).1
  have hv := hapart v List.mem_cons_self
  have hclear : Linked (H.setNext v none).next map ls := by
    refine h.congr ?_
    intro a ha
    refine Function.update_of_ne ?_ ..
    rintro rfl
    exact hv ha
  obtain ⟨hadd, hframe⟩ : Linked r.2.next r.1 (addAddr (H.msg v).uid v ls) ∧
      ∀ a ∉ (ls.map Prod.snd).flatten, r.2.next a = (H.setNext v none).next a := by
    rw [← hr]
    exact hclear.add hnodup hv (Function.update_self ..)
  have hother : ∀ a, a ≠ v → a ∉ (ls.map Prod.snd).flatten → r.2.next a = H.next a := by
    intro a hav ha
    rw [hframe a ha]
    exact Function.update_of_ne hav ..
  refine ⟨hadd, Seg.congr hl.2 ?_, hother⟩
  intro a ha
  refine hother a ?_ (hapart a (List.mem_cons_of_mem _ ha))
  rintro rfl
  exact hvl ha

theorem Linked.group {n : ℕ} {list : Option Addr} {l : List Addr} {H : Heap}
    {map : List (ℤ × Links Addr)} {ls : List (ℤ × List Addr)} (h : Linked H.next map ls)
    (hl : Chain H.next list l) (hn : l.length ≤ n) (hnodup : (ls.map Prod.snd).flatten.Nodup)
    (hapart : ∀ a ∈ l, a ∉ (ls.map Prod.snd).flatten) :
    Linked (MsMessageCollector.group n list map H).2.next
      (MsMessageCollector.group n list map H).1
      (l.foldl (fun ls a => addAddr (H.msg a).uid a ls) ls) := by
  induction l generalizing n list map ls H with
  | nil =>
    obtain rfl : list = none := hl
    cases n <;> exact h
  | cons v l ih =>
    obtain ⟨n, rfl⟩ : ∃ k, n = k + 1 := Nat.exists_eq_succ_of_ne_zero (by
      rintro rfl
      cases hn)
    have hvl : v ∉ l := (List.nodup_cons.mp (Chain.nodup hl)).1
    have hv := hapart v List.mem_cons_self
    obtain rfl : list = some v := hl.1
    obtain ⟨hadd, hchain, -⟩ := h.turn hl hnodup hapart rfl
    have hperm := addAddr_perm (H.msg v).uid v ls
    have hapart' : ∀ a ∈ l, a ∉ ((addAddr (H.msg v).uid v ls).map Prod.snd).flatten := by
      intro a ha hmem
      rcases List.mem_cons.mp (hperm.mem_iff.mp hmem) with rfl | hmem
      · exact hvl ha
      · exact hapart a (List.mem_cons_of_mem _ ha) hmem
    have hloop := ih hadd hchain (Nat.le_of_succ_le_succ hn)
      (hperm.nodup_iff.mpr (List.nodup_cons.mpr ⟨hv, hnodup⟩)) hapart'
    rw [MsMessageCollector.add_msg] at hloop
    exact hloop

/-- **`run` in memory is `groupMessages`**: the lists that the collector makes of
a batch hold the messages of each user, in order. -/
theorem MsMessageCollector.group_groupMessages {n : ℕ} {list : Option Addr} {l : List Addr}
    {H : Heap} (hl : Chain H.next list l) (hn : l.length ≤ n) :
    ∃ ls, Linked (group n list [] H).2.next (group n list [] H).1 ls ∧
      valuesOf H ls = groupMessages (l.map H.msg) := by
  refine ⟨l.foldl (fun ls a => addAddr (H.msg a).uid a ls) [], ?_, ?_⟩
  · exact Linked.group List.Forall₂.nil hl hn List.nodup_nil (fun _ _ => List.not_mem_nil)
  · have hloop : ∀ (l : List Addr) (ls : List (ℤ × List Addr)),
        valuesOf H (l.foldl (fun ls a => addAddr (H.msg a).uid a ls) ls) =
          (l.map H.msg).foldl (fun map msg => addMessage msg map) (valuesOf H ls) := by
      intro l
      induction l with
      | nil => exact fun _ => rfl
      | cons a l ih =>
        intro ls
        rw [List.foldl_cons, ih, valuesOf_addAddr, List.map_cons, List.foldl_cons]
    exact hloop l []

/-! ### The system -/

/-- The register table, the connections and the messages. -/
structure Exchange where
  table : ImUserChannelRegisterTableLocal
  /-- `_id` of the accept service -/
  lastId : ℕ
  /-- The open connections. -/
  opened : List ℕ
  /-- Messages on their way to an IO thread. -/
  routed : List IMessage
  /-- Messages that a connection has not written yet. -/
  pending : List IMessage
  /-- Messages that a worker of the broker will give to the collector. -/
  aside : List IMessage
  /-- The queue of the collector, and the lists that it is collecting. -/
  queue : List IMessage
  groups : List (List IMessage)
  /-- Messages on their way to an IO thread that have been released. -/
  released : List IMessage

namespace Exchange

/-- One step of one thread. -/
inductive Event
  /-- A connection is accepted and opened. -/
  | accept
  /-- A worker calls `update(msg)`. -/
  | update (msg : IMessage)
  /-- A worker calls `routeBack(msg)`. -/
  | routeBack (msg : IMessage)
  /-- The dispatch of `msg` failed, and the worker calls `collect(msg)`. -/
  | refuse (msg : IMessage)
  /-- `routeList` looks up the user of `msg`. -/
  | lookUp (msg : IMessage)
  /-- The broker gives a message to the collector. -/
  | collectAside (k : ℕ)
  /-- An IO thread pushes a message. -/
  | push (k : ℕ)
  /-- A connection has written its first message. -/
  | write (conn : ℕ)
  /-- A connection closes. -/
  | close (conn : ℕ)
  /-- The collector takes its queue, and collects the messages of a user. -/
  | take
  | collect

/-- Before the first connection. -/
def start : Exchange where
  table := ImUserChannelRegisterTableLocal.empty
  lastId := 0
  opened := []
  routed := []
  pending := []
  aside := []
  queue := []
  groups := []
  released := []

/-- The message came from a connection that was accepted. -/
def Issued (s : Exchange) (msg : IMessage) : Prop := msg.conn ≤ s.lastId

instance (s : Exchange) (msg : IMessage) : Decidable (s.Issued msg) :=
  inferInstanceAs (Decidable (_ ≤ _))

/-- What a step does; `none` if it cannot be taken.  There is no step in which an
IO thread takes a message of `released`: what it would find there is not defined. -/
def step (host : ℕ) (s : Exchange) : Event → Option Exchange
  | .accept =>
    let id := (s.lastId + 1) % 2 ^ 64
    some { s with lastId := id, opened := id :: s.opened }
  | .update msg =>
    if s.Issued msg then
      some { s with table := s.table.set msg.uid (ImUserMessageRouter.channelOf host msg) }
    else none
  | .routeBack msg => if s.Issued msg then some { s with routed := s.routed ++ [msg] } else none
  | .refuse msg => if s.Issued msg then some { s with queue := s.queue ++ [msg] } else none
  | .lookUp msg =>
    -- a message that the broker has made names no connection
    if msg.conn = toUInt64 (-1) then
      let ch := s.table.get msg.uid
      if ch.uid ≠ -1 then some { s with routed := s.routed ++ [ImUserMessageRouter.sendTo ch msg] }
      else some { s with aside := s.aside ++ [msg] }
    else none
  | .collectAside k =>
    s.aside[k]?.map fun msg =>
      { s with aside := s.aside.eraseIdx k, queue := s.queue ++ [msg] }
  | .push k =>
    s.routed[k]?.map fun msg =>
      let s := { s with routed := s.routed.eraseIdx k }
      if msg.conn ∈ s.opened then { s with pending := s.pending ++ [msg] }
      else { s with queue := s.queue ++ [msg] }
  | .write conn => some { s with pending := s.pending.eraseP fun m => m.conn = conn }
  | .close conn =>
    if conn ∈ s.opened then
      some { s with
        opened := s.opened.filter fun c => c ≠ conn
        pending := s.pending.filter fun m => m.conn ≠ conn
        -- only the first of the messages is collected
        queue := s.queue ++ (s.pending.filter fun m => m.conn = conn).take 1 }
    else none
  | .take =>
    if s.groups = [] then
      some { s with queue := [], groups := (groupMessages s.queue).map Prod.snd }
    else none
  | .collect =>
    match s.groups with
    | [] => none
    | g :: groups =>
      let r := recollect s.table g
      some { s with table := r.1, released := s.released ++ r.2, groups := groups }

/-- Only registrations whose connection has been closed are erased. -/
def Lawful (host : ℕ) (s : Exchange) (e : Event) : Prop :=
  ∀ s', step host s e = some s' → ∀ u ch, s.table.map u = some ch → s'.table.map u = none →
    ch.conn ∉ s.opened

/-! ### The invariant -/

/-- The messages that the collector has or will be given. -/
def collecting (s : Exchange) : List IMessage := s.aside ++ s.queue ++ s.groups.flatten

/-- All messages. -/
def messages (s : Exchange) : List IMessage := s.routed ++ s.pending ++ s.collecting

/-- The user of the message is not registered on an open connection that is older
than the message's. -/
def Fits (s : Exchange) (msg : IMessage) : Prop :=
  ∀ ch ∈ s.table.map msg.uid, ch.conn ∈ s.opened → msg.conn ≤ ch.conn

instance (s : Exchange) (msg : IMessage) : Decidable (s.Fits msg) :=
  inferInstanceAs (Decidable (∀ ch ∈ s.table.map msg.uid, _))

/-- As long as the connection of a user's channel is open, no message of the user
is for a newer one; what the collector has is for closed connections; and no IO
thread is about to read freed memory. -/
structure Inv (s : Exchange) : Prop where
  issued : ∀ m ∈ s.messages, s.Issued m
  entries : ∀ u ch, s.table.map u = some ch → ch.conn ≤ s.lastId
  openIds : ∀ c ∈ s.opened, c ≤ s.lastId
  fits : ∀ m ∈ s.messages, s.Fits m
  gone : ∀ m ∈ s.collecting, m.conn ∉ s.opened
  uniform : ∀ g ∈ s.groups, ∀ m ∈ g, ∀ m' ∈ g, m.uid = m'.uid
  released : s.released = []

variable {host : ℕ} {s s' : Exchange} {e : Event}

theorem inv_start : Inv start where
  issued _ hm := nomatch hm
  entries _ _ h := nomatch h
  openIds _ hc := nomatch hc
  fits _ hm := nomatch hm
  gone _ hm := nomatch hm
  uniform _ hg := nomatch hg
  released := rfl

/-- A step that registers no one: messages move, or come in and fit. -/
theorem Inv.moved (h : Inv s) (htable : s'.table = s.table) (hid : s'.lastId = s.lastId)
    (hopened : ∀ c ∈ s'.opened, c ∈ s.opened)
    (hmessages : ∀ m ∈ s'.messages, m ∈ s.messages ∨ s.Issued m ∧ s.Fits m)
    (hcollecting : ∀ m ∈ s'.collecting, m ∈ s.collecting ∨ m.conn ∉ s'.opened)
    (huniform : ∀ g ∈ s'.groups, ∀ m ∈ g, ∀ m' ∈ g, m.uid = m'.uid)
    (hreleased : s'.released = s.released) : Inv s' := by
  refine ⟨?_, ?_, ?_, ?_, ?_, huniform, hreleased.trans h.released⟩
  · intro m hm
    show m.conn ≤ s'.lastId
    rw [hid]
    rcases hmessages m hm with hm | hm
    · exact h.issued m hm
    · exact hm.1
  · rw [htable, hid]
    exact h.entries
  · rw [hid]
    exact fun c hc => h.openIds c (hopened c hc)
  · intro m hm ch hch hopen
    rw [htable] at hch
    rcases hmessages m hm with hm | hm
    · exact h.fits m hm ch hch (hopened _ hopen)
    · exact hm.2 ch hch (hopened _ hopen)
  · intro m hm
    rcases hcollecting m hm with hm | hm
    · exact fun hc => h.gone m hm (hopened _ hc)
    · exact hm

/-- A step among the messages that the collector has or will be given. -/
theorem Inv.regrouped (h : Inv s) (htable : s'.table = s.table) (hid : s'.lastId = s.lastId)
    (hopened : s'.opened = s.opened) (hrouted : s'.routed = s.routed)
    (hpending : s'.pending = s.pending) (hcollecting : ∀ m ∈ s'.collecting, m ∈ s.collecting)
    (huniform : ∀ g ∈ s'.groups, ∀ m ∈ g, ∀ m' ∈ g, m.uid = m'.uid)
    (hreleased : s'.released = s.released) : Inv s' := by
  refine h.moved htable hid (fun _ hc => hopened ▸ hc) ?_ (fun m hm => Or.inl (hcollecting m hm))
    huniform hreleased
  intro m hm
  rw [messages, hrouted, hpending] at hm
  left
  rcases List.mem_append.mp hm with hm | hm
  · exact List.mem_append_left _ hm
  · exact List.mem_append_right _ (hcollecting m hm)

/-- One message more is on its way to an IO thread. -/
theorem Inv.route {msg : IMessage} (h : Inv s) (hissued : s.Issued msg) (hfits : s.Fits msg) :
    Inv { s with routed := s.routed ++ [msg] } := by
  refine h.moved rfl rfl (fun _ hc => hc) ?_ (fun m hm => Or.inl hm) h.uniform rfl
  intro m hm
  simp only [messages, List.mem_append, List.mem_singleton] at hm ⊢
  rcases hm with ((hm | rfl) | hm) | hm
  · exact Or.inl (Or.inl (Or.inl hm))
  · exact Or.inr ⟨hissued, hfits⟩
  · exact Or.inl (Or.inl (Or.inr hm))
  · exact Or.inl (Or.inr hm)

/-- The guard of the steps.  Fewer than `2 ^ 64` connections are accepted; a user
is not registered on a connection older than that of a message under way to it,
and a message of the user is not for a connection newer than an open one on
which the user is registered; a message whose dispatch failed comes from a
closed connection; the users that the broker looks up are registered; and the
collector does not route a list again, since it would release it as well. -/
def Allowed (s : Exchange) : Event → Prop
  | .accept => s.lastId + 1 < 2 ^ 64
  | .update msg => ∀ m ∈ s.messages, m.uid = msg.uid → m.conn ≤ msg.conn
  | .routeBack msg => s.Fits msg
  | .refuse msg => s.Fits msg ∧ msg.conn ∉ s.opened
  | .lookUp msg => (s.table.get msg.uid).uid ≠ -1
  | .collect => ∀ g ∈ s.groups.head?, (recollect s.table g).2 = []
  | _ => True

instance (s : Exchange) (e : Event) : Decidable (s.Allowed e) :=
  match e with
  | .accept => inferInstanceAs (Decidable (_ < _))
  | .update msg => inferInstanceAs (Decidable (∀ m ∈ s.messages, m.uid = msg.uid → _))
  | .routeBack msg => inferInstanceAs (Decidable (s.Fits msg))
  | .refuse msg => inferInstanceAs (Decidable (s.Fits msg ∧ _))
  | .lookUp _ => inferInstanceAs (Decidable (_ ≠ _))
  | .collect => inferInstanceAs (Decidable (∀ g ∈ s.groups.head?, _))
  | .collectAside _ | .push _ | .write _ | .close _ | .take => isTrue trivial

theorem Inv.accept (h : Inv s) (hid : s.lastId + 1 < 2 ^ 64) :
    Inv { s with
      lastId := (s.lastId + 1) % 2 ^ 64, opened := (s.lastId + 1) % 2 ^ 64 :: s.opened } := by
  rw [Nat.mod_eq_of_lt hid]
  refine ⟨?_, ?_, ?_, ?_, ?_, h.uniform, h.released⟩
  · exact fun m hm => Nat.le_succ_of_le (h.issued m hm)
  · exact fun u ch hch => Nat.le_succ_of_le (h.entries u ch hch)
  · intro c hc
    rcases List.mem_cons.mp hc with rfl | hc
    · exact le_refl _
    · exact Nat.le_succ_of_le (h.openIds c hc)
  · -- the new connection is in no channel
    intro m hm ch hch hopen
    rcases List.mem_cons.mp hopen with hc | hopen
    · have hle := h.entries _ ch hch
      omega
    · exact h.fits m hm ch hch hopen
  · intro m hm hopen
    rcases List.mem_cons.mp hopen with hc | hopen
    · have hle : m.conn ≤ s.lastId := h.issued m (List.mem_append_right _ hm)
      omega
    · exact h.gone m hm hopen

theorem Inv.update {msg : IMessage} (h : Inv s) (hissued : s.Issued msg)
    (hnewest : ∀ m ∈ s.messages, m.uid = msg.uid → m.conn ≤ msg.conn) :
    Inv { s with table := s.table.set msg.uid (ImUserMessageRouter.channelOf host msg) } := by
  have hmap : ∀ u ch, (s.table.set msg.uid (ImUserMessageRouter.channelOf host msg)).map u =
      some ch → (u = msg.uid ∧ ch.conn = msg.conn) ∨ s.table.map u = some ch := by
    intro u ch hch
    rcases eq_or_ne u msg.uid with rfl | hne
    · obtain rfl := Option.some.inj ((Function.update_self msg.uid _ _).symm.trans hch)
      exact Or.inl ⟨rfl, rfl⟩
    · exact Or.inr ((Function.update_of_ne hne ..).symm.trans hch)
  refine ⟨h.issued, ?_, h.openIds, ?_, h.gone, h.uniform, h.released⟩
  · intro u ch hch
    rcases hmap u ch hch with ⟨-, hconn⟩ | hold
    · exact hconn.trans_le hissued
    · exact h.entries u ch hold
  · intro m hm ch hch hopen
    rcases hmap m.uid ch hch with ⟨huid, hconn⟩ | hold
    · rw [hconn]
      exact hnewest m hm huid
    · exact h.fits m hm ch hold hopen

/-- The greatest id of a list is that of one of its messages. -/
theorem maxConn_mem (msg : IMessage) (l : List IMessage) :
    ∃ m ∈ msg :: l, m.conn = maxConn msg l := by
  induction l generalizing msg with
  | nil => exact ⟨msg, List.mem_cons_self, rfl⟩
  | cons x l ih =>
    by_cases hx : x.conn > msg.conn
    · obtain ⟨m, hm, hconn⟩ := ih x
      refine ⟨m, List.mem_cons_of_mem _ hm, hconn.trans ?_⟩
      unfold maxConn
      rw [List.foldl_cons, if_pos hx]
    · obtain ⟨m, hm, hconn⟩ := ih msg
      refine ⟨m, ?_, hconn.trans ?_⟩
      · rcases List.mem_cons.mp hm with rfl | hm
        · exact List.mem_cons_self
        · exact List.mem_cons_of_mem _ (List.mem_cons_of_mem _ hm)
      · unfold maxConn
        rw [List.foldl_cons, if_neg hx]

/-- `recollect` registers no one. -/
theorem recollect_table {T : ImUserChannelRegisterTableLocal} {g : List IMessage} {u : ℤ}
    {ch : IoChannel} (h : (recollect T g).1.map u = some ch) : T.map u = some ch := by
  cases g with
  | nil => exact h
  | cons msg l => exact (ImUserChannelRegisterTableLocal.getOrUnset_map.mp h).1

theorem Inv.collect {g : List IMessage} {groups : List (List IMessage)} (h : Inv s)
    (hgroups : s.groups = g :: groups) (hnone : (recollect s.table g).2 = []) :
    Inv { s with
      table := (recollect s.table g).1
      released := s.released ++ (recollect s.table g).2
      groups := groups } := by
  have hless : ∀ m ∈ s.aside ++ s.queue ++ groups.flatten, m ∈ s.collecting := by
    intro m hm
    unfold collecting
    rw [hgroups]
    simp only [List.flatten_cons, List.mem_append] at hm ⊢
    tauto
  have hmessages : ∀ m ∈ s.routed ++ s.pending ++ (s.aside ++ s.queue ++ groups.flatten),
      m ∈ s.messages := by
    intro m hm
    rcases List.mem_append.mp hm with hm | hm
    · exact List.mem_append_left _ hm
    · exact List.mem_append_right _ (hless m hm)
  refine ⟨fun m hm => h.issued m (hmessages m hm), ?_, h.openIds, ?_, ?_, ?_, ?_⟩
  · exact fun u ch hch => h.entries u ch (recollect_table hch)
  · exact fun m hm ch hch => h.fits m (hmessages m hm) ch (recollect_table hch)
  · exact fun m hm => h.gone m (hless m hm)
  · exact fun g' hg' => h.uniform g' (by rw [hgroups]; exact List.mem_cons_of_mem _ hg')
  · show s.released ++ (recollect s.table g).2 = []
    rw [hnone, h.released, List.append_nil]

/-- **What is erased** was registered on a closed connection: the greatest id of
the batch is not greater than that of an open channel, and is not its id. -/
theorem Inv.erased {g : List IMessage} {groups : List (List IMessage)} {u : ℤ} {ch : IoChannel}
    (h : Inv s) (hgroups : s.groups = g :: groups) (hch : s.table.map u = some ch)
    (herased : (recollect s.table g).1.map u = none) : ch.conn ∉ s.opened := by
  intro hopen
  have hg : g ∈ s.groups := by
    rw [hgroups]
    exact List.mem_cons_self
  have hcollecting : ∀ m ∈ g, m ∈ s.collecting :=
    fun m hm => List.mem_append_right _ (List.mem_flatten_of_mem hg hm)
  cases g with
  | nil =>
    rw [show (recollect s.table []).1 = s.table from rfl, hch] at herased
    cases herased
  | cons msg l =>
    have hold : ¬ (recollect s.table (msg :: l)).1.map u = some ch := by
      rw [herased]
      rintro ⟨⟩
    have hle : msg.uid = u ∧ ch.conn ≤ maxConn msg l := by
      by_contra hno
      exact hold (ImUserChannelRegisterTableLocal.getOrUnset_map.mpr ⟨hch, hno⟩)
    obtain ⟨rfl, hle⟩ := hle
    obtain ⟨m, hm, hconn⟩ := maxConn_mem msg l
    have huid := h.uniform _ hg m hm msg List.mem_cons_self
    have hfits := h.fits m (List.mem_append_right _ (hcollecting m hm)) ch (huid.symm ▸ hch) hopen
    have hsame : m.conn = ch.conn := le_antisymm hfits (hle.trans_eq hconn.symm)
    exact h.gone m (hcollecting m hm) (hsame.symm ▸ hopen)

theorem Inv.take (h : Inv s) :
    Inv { s with queue := [], groups := (groupMessages s.queue).map Prod.snd } := by
  have hgroup := groupMessages_grouped s.queue
  have hcollecting : ∀ m ∈ s.aside ++ [] ++ ((groupMessages s.queue).map Prod.snd).flatten,
      m ∈ s.collecting := by
    intro m hm
    rw [List.append_nil] at hm
    rcases List.mem_append.mp hm with hm | hm
    · exact List.mem_append_left _ (List.mem_append_left _ hm)
    · obtain ⟨l, hl, hm⟩ := List.mem_flatten.mp hm
      obtain ⟨e, he, rfl⟩ := List.mem_map.mp hl
      exact List.mem_append_left _ (List.mem_append_right _ (hgroup e he m hm).2)
  refine h.regrouped rfl rfl rfl rfl rfl hcollecting ?_ rfl
  intro g hg m hm m' hm'
  obtain ⟨e, he, rfl⟩ := List.mem_map.mp hg
  rw [(hgroup e he m hm).1, (hgroup e he m' hm').1]

/-- A message of the broker gets the channel of its user. -/
theorem Inv.lookUp {msg : IMessage} (h : Inv s) (hfound : (s.table.get msg.uid).uid ≠ -1) :
    Inv { s with
      routed := s.routed ++ [ImUserMessageRouter.sendTo (s.table.get msg.uid) msg] } := by
  have hch : s.table.map msg.uid = some (s.table.get msg.uid) := by
    unfold ImUserChannelRegisterTableLocal.get at hfound ⊢
    rcases hmap : s.table.map msg.uid with - | ch
    · rw [hmap] at hfound
      exact absurd rfl hfound
    · rfl
  have hsent : ImUserMessageRouter.sendTo (s.table.get msg.uid) msg =
      { msg with io := (s.table.get msg.uid).io, conn := (s.table.get msg.uid).conn } :=
    if_pos hfound
  rw [hsent]
  refine h.route (h.entries _ _ hch) ?_
  intro ch hch' _
  rw [Option.some.inj (hch.symm.trans hch')]

theorem Inv.collectAside {k : ℕ} {msg : IMessage} (h : Inv s) (hk : s.aside[k]? = some msg) :
    Inv { s with aside := s.aside.eraseIdx k, queue := s.queue ++ [msg] } := by
  have hmsg : msg ∈ s.aside := List.mem_of_getElem? hk
  refine h.regrouped rfl rfl rfl rfl rfl ?_ h.uniform rfl
  intro m hm
  simp only [collecting, List.mem_append, List.mem_singleton] at hm ⊢
  rcases hm with (hm | hm | rfl) | hm
  · exact Or.inl (Or.inl (List.mem_of_mem_eraseIdx hm))
  · exact Or.inl (Or.inr hm)
  · exact Or.inl (Or.inl hmsg)
  · exact Or.inr hm

/-- A message whose connection is closed goes to the collector. -/
theorem Inv.refuse {msg : IMessage} (h : Inv s) (hissued : s.Issued msg) (hfits : s.Fits msg)
    (hclosed : msg.conn ∉ s.opened) : Inv { s with queue := s.queue ++ [msg] } := by
  refine h.moved rfl rfl (fun _ hc => hc) ?_ ?_ h.uniform rfl
  · intro m hm
    simp only [messages, collecting, List.mem_append, List.mem_singleton] at hm ⊢
    rcases hm with hm | (hm | hm | rfl) | hm
    · exact Or.inl (Or.inl hm)
    · exact Or.inl (Or.inr (Or.inl (Or.inl hm)))
    · exact Or.inl (Or.inr (Or.inl (Or.inr hm)))
    · exact Or.inr ⟨hissued, hfits⟩
    · exact Or.inl (Or.inr (Or.inr hm))
  · intro m hm
    simp only [collecting, List.mem_append, List.mem_singleton] at hm ⊢
    rcases hm with (hm | hm | rfl) | hm
    · exact Or.inl (Or.inl (Or.inl hm))
    · exact Or.inl (Or.inl (Or.inr hm))
    · exact Or.inr hclosed
    · exact Or.inl (Or.inr hm)

/-- Messages move between the two lists on the way to their connections, or leave
them. -/
theorem Inv.transit {routed pending : List IMessage} (h : Inv s)
    (hmem : ∀ m ∈ routed ++ pending, m ∈ s.routed ++ s.pending) :
    Inv { s with routed := routed, pending := pending } := by
  refine h.moved rfl rfl (fun _ hc => hc) ?_ (fun m hm => Or.inl hm) h.uniform rfl
  intro m hm
  rcases List.mem_append.mp hm with hm | hm
  · exact Or.inl (List.mem_append_left _ (hmem m hm))
  · exact Or.inl (List.mem_append_right _ hm)

/-- A message less on its way to an IO thread. -/
theorem Inv.unroute (h : Inv s) (k : ℕ) : Inv { s with routed := s.routed.eraseIdx k } := by
  refine h.transit fun m hm => ?_
  rcases List.mem_append.mp hm with hm | hm
  · exact List.mem_append_left _ (List.mem_of_mem_eraseIdx hm)
  · exact List.mem_append_right _ hm

/-- An IO thread finds the connection of a message, or it is closed. -/
theorem Inv.push {k : ℕ} {msg : IMessage} (h : Inv s) (hk : s.routed[k]? = some msg) :
    Inv (if msg.conn ∈ s.opened then
        { s with routed := s.routed.eraseIdx k, pending := s.pending ++ [msg] }
      else { s with routed := s.routed.eraseIdx k, queue := s.queue ++ [msg] }) := by
  have hmsg : msg ∈ s.routed := List.mem_of_getElem? hk
  split
  · refine h.transit fun m hm => ?_
    simp only [List.mem_append, List.mem_singleton] at hm ⊢
    rcases hm with hm | hm | rfl
    · exact Or.inl (List.mem_of_mem_eraseIdx hm)
    · exact Or.inr hm
    · exact Or.inl hmsg
  · rename_i hclosed
    have hin : msg ∈ s.messages := List.mem_append_left _ (List.mem_append_left _ hmsg)
    exact (h.unroute k).refuse (h.issued msg hin) (h.fits msg hin) hclosed

theorem Inv.write (h : Inv s) (conn : ℕ) :
    Inv { s with pending := s.pending.eraseP fun m => m.conn = conn } := by
  refine h.transit fun m hm => ?_
  rcases List.mem_append.mp hm with hm | hm
  · exact List.mem_append_left _ hm
  · exact List.mem_append_right _ (List.mem_of_mem_eraseP hm)

theorem Inv.close {conn : ℕ} (h : Inv s) :
    Inv { s with
      opened := s.opened.filter fun c => c ≠ conn
      pending := s.pending.filter fun m => m.conn ≠ conn
      queue := s.queue ++ (s.pending.filter fun m => m.conn = conn).take 1 } := by
  have hfirst : ∀ m ∈ (s.pending.filter fun m => m.conn = conn).take 1,
      m ∈ s.pending ∧ m.conn = conn := by
    intro m hm
    have hfilter := List.mem_filter.mp (List.mem_of_mem_take hm)
    exact ⟨hfilter.1, of_decide_eq_true hfilter.2⟩
  refine h.moved rfl rfl (fun c hc => (List.mem_filter.mp hc).1) ?_ ?_ h.uniform rfl
  · intro m hm
    have hpending := hfirst m
    simp only [messages, collecting, List.mem_append, List.mem_filter] at hm ⊢
    tauto
  · intro m hm
    simp only [collecting, List.mem_append] at hm ⊢
    rcases hm with (hm | hm | hm) | hm
    · exact Or.inl (Or.inl (Or.inl hm))
    · exact Or.inl (Or.inl (Or.inr hm))
    · -- a message that was pending is for the connection that closes
      right
      intro hopen
      exact absurd (hfirst m hm).2 (of_decide_eq_true (List.mem_filter.mp hopen).2)
    · exact Or.inl (Or.inr hm)

/-- **A step within its guard** keeps the invariant. -/
theorem Inv.step (h : Inv s) (hok : s.Allowed e) (hstep : step host s e = some s') : Inv s' := by
  cases e with
  | accept =>
    obtain rfl := Option.some.inj hstep
    exact h.accept hok
  | update msg =>
    dsimp only [Exchange.step] at hstep
    split at hstep
    · rename_i hissued
      obtain rfl := Option.some.inj hstep
      exact h.update hissued hok
    · cases hstep
  | routeBack msg =>
    dsimp only [Exchange.step] at hstep
    split at hstep
    · rename_i hissued
      obtain rfl := Option.some.inj hstep
      exact h.route hissued hok
    · cases hstep
  | refuse msg =>
    dsimp only [Exchange.step] at hstep
    split at hstep
    · rename_i hissued
      obtain rfl := Option.some.inj hstep
      exact h.refuse hissued hok.1 hok.2
    · cases hstep
  | lookUp msg =>
    dsimp only [Exchange.step] at hstep
    split at hstep
    · rw [if_pos (show (s.table.get msg.uid).uid ≠ -1 from hok)] at hstep
      obtain rfl := Option.some.inj hstep
      exact h.lookUp hok
    · cases hstep
  | collectAside k =>
    obtain ⟨msg, hk, rfl⟩ := Option.map_eq_some_iff.mp hstep
    exact h.collectAside hk
  | push k =>
    obtain ⟨msg, hk, rfl⟩ := Option.map_eq_some_iff.mp hstep
    exact h.push hk
  | write conn =>
    obtain rfl := Option.some.inj hstep
    exact h.write conn
  | close conn =>
    dsimp only [Exchange.step] at hstep
    split at hstep
    · obtain rfl := Option.some.inj hstep
      exact h.close
    · cases hstep
  | take =>
    dsimp only [Exchange.step] at hstep
    split at hstep
    · obtain rfl := Option.some.inj hstep
      exact h.take
    · cases hstep
  | collect =>
    dsimp only [Exchange.step] at hstep
    split at hstep
    · cases hstep
    · rename_i g groups hgroups
      obtain rfl := Option.some.inj hstep
      exact h.collect hgroups (hok g (by rw [hgroups]; rfl))

/-- Only the collector erases registrations. -/
theorem Inv.lawful (h : Inv s) : Lawful host s e := by
  intro s' hstep u ch hch hnone
  have hsame : s'.table = s.table → ch.conn ∉ s.opened := by
    intro htable
    rw [htable, hch] at hnone
    cases hnone
  cases e with
  | collect =>
    dsimp only [Exchange.step] at hstep
    split at hstep
    · cases hstep
    · rename_i g groups hgroups
      obtain rfl := Option.some.inj hstep
      exact h.erased hgroups hch hnone
  | update msg =>
    dsimp only [Exchange.step] at hstep
    split at hstep
    · obtain rfl := Option.some.inj hstep
      rcases eq_or_ne u msg.uid with rfl | hne
      · exact absurd ((Function.update_self msg.uid _ _).symm.trans hnone) (by rintro ⟨⟩)
      · have hold : s.table.map u = none := (Function.update_of_ne hne ..).symm.trans hnone
        rw [hch] at hold
        cases hold
    · cases hstep
  | accept | write conn =>
    obtain rfl := Option.some.inj hstep
    exact hsame rfl
  | routeBack msg | refuse msg | close conn | take =>
    dsimp only [Exchange.step] at hstep
    split at hstep
    · obtain rfl := Option.some.inj hstep
      exact hsame rfl
    · cases hstep
  | lookUp msg =>
    dsimp only [Exchange.step] at hstep
    split at hstep
    · split at hstep
      all_goals
        obtain rfl := Option.some.inj hstep
        exact hsame rfl
    · cases hstep
  | collectAside k =>
    obtain ⟨msg, -, rfl⟩ := Option.map_eq_some_iff.mp hstep
    exact hsame rfl
  | push k =>
    obtain ⟨msg, -, rfl⟩ := Option.map_eq_some_iff.mp hstep
    refine hsame ?_
    dsimp only
    split <;> rfl

open RouterOp (fromConn)

/-- The connection on which user 7 is registered before and after a `collect` at the
end of a run, and the connections that are open. -/
def aroundCollect (es : List Event) : Option (Option ℕ × Option ℕ × List ℕ) :=
  (runEvents (step 0) start es).bind fun s =>
    (step 0 s .collect).map fun s' =>
      ((s.table.map 7).map IoChannel.conn, (s'.table.map 7).map IoChannel.conn, s.opened)

end Exchange

end Xkim
