/-
MsgHandler/Heap.lean

Messages and push data in memory, and the two intrusive queues a connection
hands its messages through: `io::IoPushList` (`framework/io/io_push_list.h`)
and `ms::MsMessageBlockQueue` (`framework/ms/ms_message_block_queue.cpp`).

Addresses are natural numbers handed out in order, so `brk` bounds every
address in use.  The `_next` links are kept apart from the rest of a node,
because the theory of chains is about them; everything else is a map from
addresses to contents.  Freeing is recorded, not enforced: a double free is
an address that occurs twice in the record.

A push list threads two chains at once.  The push data are linked through
their own `_next`, and at the same time their messages are linked through
`IMessage::_next`, so that `stealMsg` can pass the whole list on as a chain
of messages.  `PushRep` says that the two chains agree.
-/
import MsgHandler.Chain
import MsgHandler.Message

namespace Xkim

/-- A place in memory. -/
abbrev Addr := ℕ

/-- `io::IoPushData`, less its `_next` link; `_wbuf` is the buffer of its
message. -/
structure IoPushData where
  msg : Addr
  wsize : ℤ
  wpos : ℤ
  deriving DecidableEq, Repr

/-- The memory shared by the queues. -/
structure Heap where
  msg : Addr → IMessage
  next : Addr → Option Addr
  brk : ℕ
  released : List Addr
  pd : Addr → IoPushData
  pdNext : Addr → Option Addr
  pdBrk : ℕ
  pdFreed : List Addr

namespace Heap

/-- Nothing allocated yet. -/
def empty : Heap where
  msg _ := createIMessage [] 0
  next _ := none
  brk := 0
  released := []
  pd _ := ⟨0, 0, 0⟩
  pdNext _ := none
  pdBrk := 0
  pdFreed := []

/-- `v->_next = q`. -/
def setNext (H : Heap) (v : Addr) (q : Option Addr) : Heap :=
  { H with next := Function.update H.next v q }

/-- `releaseIMessage(v)`. -/
def releaseIMessage (H : Heap) (v : Addr) : Heap :=
  { H with released := H.released ++ [v] }

/-- `destroyPushData(d)`. -/
def destroyPushData (H : Heap) (d : Addr) : Heap :=
  { H with pdFreed := H.pdFreed ++ [d] }

/-- `destroyMsgData(d)`: release the message, then the push data. -/
def destroyMsgData (H : Heap) (d : Addr) : Heap :=
  (H.releaseIMessage (H.pd d).msg).destroyPushData d

end Heap

/-! ### The collector's queue -/

/-- `ms::MsMessageBlockQueue`; its mutex makes each member atomic.  The count is an
`int`, which stands for itself as long as at most `INT_MAX` messages are queued. -/
structure MsMessageBlockQueue where
  links : Links Addr
  listSize : ℕ

namespace MsMessageBlockQueue

/-- An empty queue. -/
def empty : MsMessageBlockQueue := ⟨Links.empty, 0⟩

/-- `put(v)`: append one message, whatever it was linked to. -/
def put (Q : MsMessageBlockQueue) (v : Addr) (H : Heap) : MsMessageBlockQueue × Heap :=
  let H := H.setNext v none
  let r := Q.links.attach H.next v v
  (⟨r.2, Q.listSize + 1⟩, { H with next := r.1 })

/-- `putList(v)`: append the chain that starts at `v`. -/
def putList (Q : MsMessageBlockQueue) (v : Addr) (H : Heap) : MsMessageBlockQueue × Heap :=
  let r := Q.links.attach H.next v v
  let e := lastNode r.1 H.brk v
  (⟨⟨r.2.head, some e.1⟩, Q.listSize + e.2⟩, { H with next := r.1 })

/-- `get()`: take everything.  It blocks on an empty queue. -/
def get (Q : MsMessageBlockQueue) : Option (Addr × MsMessageBlockQueue) :=
  if Q.listSize = 0 then none else Q.links.head.map fun v => (v, empty)

/-- The messages in the queue. -/
def toList (Q : MsMessageBlockQueue) (H : Heap) : List Addr :=
  walk H.next Q.listSize Q.links.head

/-- The queue holds the messages `l`, in order. -/
def Rep (Q : MsMessageBlockQueue) (H : Heap) (l : List Addr) : Prop :=
  Links.Rep H.next Q.links l ∧ Q.listSize = l.length

variable {Q : MsMessageBlockQueue} {H : Heap} {l : List Addr} {v : Addr}

theorem Rep.toList_eq (h : Q.Rep H l) : Q.toList H = l := by
  rw [toList, h.2]
  exact Chain.walk_eq h.1.1 (le_refl _)

theorem rep_empty : empty.Rep H [] := ⟨Links.rep_empty, rfl⟩

theorem Rep.congr {H' : Heap} (h : Q.Rep H l) (hnext : ∀ v ∈ l, H'.next v = H.next v) :
    Q.Rep H' l :=
  ⟨h.1.congr hnext, h.2⟩

/-- **`put` appends one message**: the link of `v` is cleared first. -/
theorem Rep.put (h : Q.Rep H l) (hv : v ∉ l) : (Q.put v H).1.Rep (Q.put v H).2 (l ++ [v]) := by
  refine ⟨h.1.push hv, ?_⟩
  show Q.listSize + 1 = _
  rw [h.2, List.length_append]
  rfl

/-- **`putList` appends the whole chain.** -/
theorem Rep.putList {l' : List Addr} (h : Q.Rep H l) (hv : Chain H.next (some v) (v :: l'))
    (hd : ∀ a ∈ l, a ∉ v :: l') (hbrk : ∀ a ∈ v :: l', a < H.brk) :
    (Q.putList v H).1.Rep (Q.putList v H).2 (l ++ v :: l') := by
  have hlen : l'.length ≤ H.brk :=
    (Nat.le_succ _).trans (length_le_of_nodup_lt (Chain.nodup hv) hbrk)
  obtain ⟨hrep, hcount⟩ := h.1.attach_walk hv hd hlen
  refine ⟨hrep, ?_⟩
  show Q.listSize + (lastNode (Q.links.attach H.next v v).1 H.brk v).2 = _
  rw [hcount, h.2, List.length_append]

theorem Rep.get_nil (h : Q.Rep H []) : Q.get = none := by
  have hsize : Q.listSize = 0 := h.2
  rw [MsMessageBlockQueue.get, if_pos hsize]

/-- **`get()` takes everything.** -/
theorem Rep.get (h : Q.Rep H l) (hne : l ≠ []) :
    ∃ v, Q.get = some (v, empty) ∧ Chain H.next (some v) l := by
  obtain ⟨hlinks, hsize⟩ := h
  obtain ⟨v, l, rfl⟩ := List.exists_cons_of_ne_nil hne
  have hhead : Q.links.head = some v := hlinks.head_eq
  have hpos : Q.listSize ≠ 0 := by
    rw [hsize, List.length_cons]
    exact Nat.succ_ne_zero _
  refine ⟨v, ?_, ?_⟩
  · rw [MsMessageBlockQueue.get, if_neg hpos, hhead, Option.map_some]
  · rw [← hhead]
    exact hlinks.1

end MsMessageBlockQueue

/-! ### The push list of a connection -/

/-- `io::IoPushList`, with the same note on the count. -/
structure IoPushList where
  links : Links Addr
  listSize : ℤ

namespace IoPushList

/-- `IoPushList::IoPushList()`. -/
def empty : IoPushList := ⟨Links.empty, 0⟩

/-- `get()`. -/
def get (L : IoPushList) (H : Heap) : Option Addr × IoPushList × Heap :=
  match L.links.head with
  | none => (none, L, H)
  | some item =>
    let list := H.pdNext item
    (some item,
      ⟨⟨list, if list = none then none else L.links.tail⟩, L.listSize - 1⟩,
      { H with
        pdNext := Function.update H.pdNext item none
        next := Function.update H.next (H.pd item).msg none })

/-- `put(d)`: append `d`, and its message to the chain of messages. -/
def put (L : IoPushList) (d : Addr) (H : Heap) : IoPushList × Heap :=
  let H := H.setNext (H.pd d).msg none
  let next := match L.links.tail with
    | some t => Function.update H.next (H.pd t).msg (some (H.pd d).msg)
    | none => H.next
  let r := L.links.attach (Function.update H.pdNext d none) d d
  (⟨r.2, L.listSize + 1⟩, { H with next := next, pdNext := r.1 })

/-- `putFirst(d)`: the same at the front. -/
def putFirst (L : IoPushList) (d : Addr) (H : Heap) : IoPushList × Heap :=
  let H := H.setNext (H.pd d).msg none
  let H := { H with pdNext := Function.update H.pdNext d L.links.head }
  match L.links.tail, L.links.head with
  | none, _ => (⟨⟨some d, some d⟩, L.listSize + 1⟩, H)
  | some t, some f =>
    (⟨⟨some d, some t⟩, L.listSize + 1⟩, H.setNext (H.pd d).msg (some (H.pd f).msg))
  | some t, none => (⟨⟨some d, some t⟩, L.listSize + 1⟩, H)

/-- The push data in the list. -/
def items (L : IoPushList) (H : Heap) : List Addr := walk H.pdNext H.pdBrk L.links.head

/-- `clear()`: release messages and push data. -/
def clear (L : IoPushList) (H : Heap) : IoPushList × Heap :=
  (empty, (L.items H).foldl Heap.destroyMsgData H)

/-- `shallowClear()`: release the push data only. -/
def shallowClear (L : IoPushList) (H : Heap) : IoPushList × Heap :=
  (empty, (L.items H).foldl Heap.destroyPushData H)

/-- `stealMsg()`. -/
def stealMsg (L : IoPushList) (H : Heap) : Option Addr :=
  L.links.head.map fun d => (H.pd d).msg

/-! #### What a push list holds -/

/-- The message of a push datum. -/
abbrev msgOf (H : Heap) (d : Addr) : Addr := (H.pd d).msg

/-- The list holds the push data `ds`, in order, and their messages are
chained in the same order. -/
structure Rep (L : IoPushList) (H : Heap) (ds : List Addr) : Prop where
  links : Links.Rep H.pdNext L.links ds
  size : L.listSize = ds.length
  msgs : Chain H.next (ds.head?.map (msgOf H)) (ds.map (msgOf H))
  bound : ∀ d ∈ ds, d < H.pdBrk

variable {L : IoPushList} {H H' : Heap} {ds : List Addr} {d : Addr}

theorem rep_empty : empty.Rep H [] := ⟨Links.rep_empty, rfl, rfl, fun _ h => nomatch h⟩

/-- Memory outside the list does not matter. -/
theorem Rep.congr (h : L.Rep H ds) (hlinks : ∀ d ∈ ds, H'.pdNext d = H.pdNext d)
    (hmsg : ∀ d ∈ ds, msgOf H' d = msgOf H d)
    (hnext : ∀ d ∈ ds, H'.next (msgOf H d) = H.next (msgOf H d)) (hbrk : H.pdBrk ≤ H'.pdBrk) :
    L.Rep H' ds := by
  refine ⟨h.links.congr hlinks, h.size, ?_, ?_⟩
  · have hmap : ds.map (msgOf H') = ds.map (msgOf H) := List.map_congr_left hmsg
    rw [← List.head?_map, hmap, List.head?_map]
    refine h.msgs.congr ?_
    intro v hv
    obtain ⟨d, hd, rfl⟩ := List.mem_map.mp hv
    exact hnext d hd
  · intro d hd
    exact lt_of_lt_of_le (h.bound d hd) hbrk

theorem Rep.items_eq (h : L.Rep H ds) : L.items H = ds :=
  h.links.1.walk_eq (length_le_of_nodup_lt h.links.nodup h.bound)

theorem Rep.stealMsg_eq (h : L.Rep H ds) : L.stealMsg H = ds.head?.map (msgOf H) := by
  rw [stealMsg, h.links.head_eq]

/-- **`put` appends**, to both chains. -/
theorem Rep.put (h : L.Rep H ds) (hd : d ∉ ds) (hm : msgOf H d ∉ ds.map (msgOf H))
    (hb : d < H.pdBrk) : (L.put d H).1.Rep (L.put d H).2 (ds ++ [d]) := by
  refine ⟨h.links.push hd, ?_, ?_, ?_⟩
  · show L.listSize + 1 = _
    rw [h.size, List.length_append]
    rfl
  · have hsingle : Chain (Function.update H.next (msgOf H d) none) (some (msgOf H d))
        [msgOf H d] := ⟨rfl, Chain.nil_iff.mpr (Function.update_self _ _ _)⟩
    -- the message of the last push datum is linked to the new one
    rcases ds.eq_nil_or_concat with rfl | ⟨ds, t, rfl⟩
    · have ht : L.links.tail = none := h.links.2
      simp only [IoPushList.put, ht]
      exact hsingle
    · rw [List.concat_eq_append] at *
      have ht : L.links.tail = some t := h.links.2.trans (by simp)
      have hc := Seg.update (v := none) hm h.msgs
      simp only [List.map_append, List.map_cons, List.map_nil] at hc hm
      have hlink := Chain.link hc hsingle (by
        intro v hv hv'
        rw [List.mem_singleton] at hv'
        exact hm (hv' ▸ hv))
      simp only [IoPushList.put, ht, Heap.setNext]
      have hhead : (ds ++ [t] ++ [d]).head? = (ds ++ [t]).head? := by cases ds <;> rfl
      rw [hhead, List.map_append, List.map_append]
      exact hlink
  · intro e he
    rcases List.mem_append.mp he with he | he
    · exact h.bound e he
    · rw [List.mem_singleton.mp he]
      exact hb

/-- `put` writes no message link outside the list. -/
theorem Rep.put_next {v : Addr} (h : L.Rep H ds) (hv : v ∉ (ds ++ [d]).map (msgOf H)) :
    (L.put d H).2.next v = H.next v := by
  rw [List.map_append, List.mem_append, not_or, List.map_singleton, List.mem_singleton] at hv
  have hlast : Function.update H.next (msgOf H d) none v = H.next v :=
    Function.update_of_ne hv.2 ..
  rcases ht : L.links.tail with - | t
  · simp only [IoPushList.put, ht]
    exact hlast
  · have hmem : t ∈ ds := List.mem_of_getLast? (by rw [← h.links.2, ht])
    have hne : v ≠ msgOf H t := by
      rintro rfl
      exact hv.1 (List.mem_map_of_mem hmem)
    simp only [IoPushList.put, ht]
    exact (Function.update_of_ne hne ..).trans hlast

/-- **`putFirst` prepends**, to both chains. -/
theorem Rep.putFirst (h : L.Rep H ds) (hd : d ∉ ds) (hm : msgOf H d ∉ ds.map (msgOf H))
    (hb : d < H.pdBrk) : (L.putFirst d H).1.Rep (L.putFirst d H).2 (d :: ds) := by
  have hlinks : Chain (Function.update H.pdNext d L.links.head) (some d) (d :: ds) := by
    refine ⟨rfl, ?_⟩
    rw [Function.update_self]
    exact Seg.update hd h.links.1
  have hbound : ∀ e ∈ d :: ds, e < H.pdBrk := by
    intro e he
    rcases List.mem_cons.mp he with rfl | he
    · exact hb
    · exact h.bound e he
  have hsize : L.listSize + 1 = ((d :: ds).length : ℤ) := by
    rw [h.size, List.length_cons]
    push_cast
    ring
  have hhead := h.links.head_eq
  have htail := h.links.2
  cases ds with
  | nil =>
    have ht : L.links.tail = none := htail
    simp only [IoPushList.putFirst, ht, Heap.setNext]
    exact ⟨⟨hlinks, rfl⟩, hsize, ⟨rfl, Chain.nil_iff.mpr (Function.update_self _ _ _)⟩, hbound⟩
  | cons f ds =>
    have hf : L.links.head = some f := hhead
    rcases ht : L.links.tail with - | t
    · rw [ht, List.getLast?_cons] at htail
      cases htail
    · simp only [IoPushList.putFirst, ht, hf, Heap.setNext]
      refine ⟨⟨hf ▸ hlinks, ?_⟩, hsize, ⟨rfl, ?_⟩, hbound⟩
      · rw [← ht, htail]
        rfl
      · have hchain : ∀ n : Addr → Option Addr, n (msgOf H d) = some (msgOf H f) →
            Chain n (some (msgOf H f)) ((f :: ds).map (msgOf H)) →
            Chain n (n (msgOf H d)) ((f :: ds).map (msgOf H)) := fun n hn hc => hn ▸ hc
        exact hchain _ (Function.update_self _ _ _) (Seg.update hm (Seg.update hm h.msgs))

/-- **`get` takes the first**, and unlinks it. -/
theorem Rep.get (h : L.Rep H (d :: ds)) :
    (L.get H).1 = some d ∧ (L.get H).2.1.Rep (L.get H).2.2 ds := by
  obtain ⟨hhead, hrest⟩ := h.links.pop
  have hnd := List.nodup_cons.mp h.links.nodup
  obtain ⟨-, hmrest⟩ := h.msgs
  have hmnd := List.nodup_cons.mp (Chain.nodup h.msgs)
  simp only [IoPushList.get, hhead]
  refine ⟨trivial, hrest.update hnd.1, ?_, ?_, ?_⟩
  · show L.listSize - 1 = _
    rw [h.size, List.length_cons]
    push_cast
    ring
  · rw [Chain.head_eq hmrest, List.head?_map] at hmrest
    exact Seg.update hmnd.1 hmrest
  · exact fun e he => h.bound e (List.mem_cons_of_mem _ he)

/-- `putFirst` writes no other message link. -/
theorem putFirst_next_of_ne {v : Addr} (hv : v ≠ msgOf H d) :
    (L.putFirst d H).2.next v = H.next v := by
  unfold IoPushList.putFirst
  dsimp only
  split <;> simp [Heap.setNext, Function.update_of_ne hv]

theorem putFirst_pd : (L.putFirst d H).2.pd = H.pd ∧ (L.putFirst d H).2.brk = H.brk := by
  unfold IoPushList.putFirst
  dsimp only
  split <;> exact ⟨rfl, rfl⟩

/-- `get` writes no message link but that of the message it takes. -/
theorem Rep.get_next {v : Addr} (h : L.Rep H (d :: ds)) (hv : v ≠ msgOf H d) :
    (L.get H).2.2.next v = H.next v := by
  simp only [IoPushList.get, show L.links.head = some d from h.links.head_eq]
  exact Function.update_of_ne hv ..

/-- Releasing push data writes nothing. -/
theorem shallowClear_heap :
    ∃ freed, (L.shallowClear H).2 = { H with pdFreed := freed } := by
  have hfold : ∀ (l : List Addr) (H : Heap),
      ∃ freed, l.foldl Heap.destroyPushData H = { H with pdFreed := freed } := by
    intro l
    induction l with
    | nil => exact fun H => ⟨H.pdFreed, rfl⟩
    | cons d l ih => exact fun H => ih (H.destroyPushData d)
  exact hfold _ H

theorem Rep.eq_empty (h : L.Rep H []) : L = empty := by
  obtain ⟨links, size⟩ := L
  obtain rfl : links = Links.empty := h.links.eq_empty
  obtain rfl : size = 0 := h.size
  rfl

theorem Rep.get_nil (h : L.Rep H []) : L.get H = (none, L, H) := by
  have hhead : L.links.head = none := h.links.head_eq
  simp only [IoPushList.get, hhead]

end IoPushList

end Xkim
