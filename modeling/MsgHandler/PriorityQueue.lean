/-
MsgHandler/PriorityQueue.lean

The queue in front of the app workers (`ms_message_priority_queue.cpp`,
`ms_message_unsafe_queue.cpp`) is a stable priority queue.

There is one intrusive queue for each priority, all of them linked through
the `_next` field of the messages, a counter in each, and a counter of them
all which decides whether `get` waits.  `put` does not clear the link of the
message, so it relies on its callers in two ways: the link is clear, and the
message is not in the queue already.  A scheduler that holds a message
guarantees both.

Under these conditions the queue refines a list of FIFO queues (`Fifo`), over
every run in which other threads do what they like with the messages that are
not in the queue (`stable`).
-/
import MsgHandler.Fifo
import MsgHandler.Run
import MsgHandler.Workers

namespace Xkim

/-! ### One queue -/

namespace MsMessageUnsafeQueue

variable {Q : MsMessageUnsafeQueue} {Qs : List MsMessageUnsafeQueue} {H : Heap}
  {next next' : Addr → Option Addr} {l : List Addr} {qs qs' : List (List Addr)} {v : Addr}

/-- The queue holds the messages `l`, in order, and counts them. -/
structure Holds (next : Addr → Option Addr) (Q : MsMessageUnsafeQueue) (l : List Addr) :
    Prop where
  rep : Links.Rep next Q.links l
  size : Q.totalSize = l.length

theorem holds_empty : empty.Holds next [] := ⟨Links.rep_empty, rfl⟩

theorem Holds.congr (h : Q.Holds next l) (hnext : ∀ a ∈ l, next' a = next a) :
    Q.Holds next' l :=
  ⟨h.rep.congr hnext, h.size⟩

/-- `get` takes the first message. -/
theorem Holds.get (h : Q.Holds H.next (v :: l)) :
    (Q.get H).1 = some v ∧ (Q.get H).2.Holds H.next l := by
  obtain ⟨hhead, hrest⟩ := h.rep.pop
  have hget : Q.get H = (some v, ⟨⟨H.next v, if H.next v = none then none else Q.links.tail⟩,
      Q.totalSize - 1⟩) := by
    simp only [MsMessageUnsafeQueue.get, hhead]
  rw [hget]
  refine ⟨rfl, hrest, ?_⟩
  show Q.totalSize - 1 = l.length
  rw [h.size]
  rfl

/-- `put` appends a message whose link is clear. -/
theorem Holds.put (h : Q.Holds next l) (hv : v ∉ l) (hnone : next v = none) :
    Holds (Q.links.attach next v v).1 ⟨(Q.links.attach next v v).2, Q.totalSize + 1⟩
      (l ++ [v]) := by
  have hsingle : Chain next (some v) [v] := ⟨rfl, Chain.nil_iff.mpr hnone⟩
  refine ⟨h.rep.attach hsingle rfl ?_, ?_⟩
  · intro a ha hav
    rw [List.mem_singleton] at hav
    exact hv (hav ▸ ha)
  · show Q.totalSize + 1 = (l ++ [v]).length
    rw [h.size, List.length_append]
    rfl

/-! ### A queue for each priority -/

/-- The links of messages in no queue do not matter. -/
theorem forall₂_congr (h : List.Forall₂ (Holds next) Qs qs)
    (hnext : ∀ a ∈ qs.flatten, next' a = next a) : List.Forall₂ (Holds next') Qs qs := by
  induction h with
  | nil => exact .nil
  | cons hq _ ih =>
    refine .cons (hq.congr fun a ha => hnext a ?_) (ih fun a ha => hnext a ?_)
    · exact List.mem_append_left _ ha
    · exact List.mem_append_right _ ha

theorem exists_holds (h : List.Forall₂ (Holds next) Qs qs) {p : ℕ} (hp : Qs[p]? = some Q) :
    ∃ l, Q.Holds next l ∧ ∀ a ∈ l, a ∈ qs.flatten := by
  induction h generalizing p with
  | nil => cases hp
  | cons hq _ ih =>
    cases p with
    | zero =>
      cases hp
      exact ⟨_, hq, fun a ha => List.mem_append_left _ ha⟩
    | succ p =>
      obtain ⟨l, hl, hmem⟩ := ih hp
      exact ⟨l, hl, fun a ha => List.mem_append_right _ (hmem a ha)⟩

/-- A message is put into one of the queues, and the others are as before. -/
theorem forall₂_put (h : List.Forall₂ (Holds next) Qs qs) (hnd : qs.flatten.Nodup) {p : ℕ}
    (hp : Qs[p]? = some Q) (hv : v ∉ qs.flatten) (hnone : next v = none) :
    List.Forall₂ (Holds (Q.links.attach next v v).1)
      (Qs.set p ⟨(Q.links.attach next v v).2, Q.totalSize + 1⟩) (Fifo.put qs p v) := by
  induction h generalizing p with
  | nil => cases hp
  | @cons q l Qs qs hq hQs ih =>
    obtain ⟨-, hnd', hapart⟩ := List.nodup_append.mp (show (l ++ qs.flatten).Nodup from hnd)
    have hvl : v ∉ l := fun hmem => hv (List.mem_append_left _ hmem)
    have hvqs : v ∉ qs.flatten := fun hmem => hv (List.mem_append_right _ hmem)
    cases p with
    | zero =>
      cases hp
      refine .cons (hq.put hvl hnone) (forall₂_congr hQs fun a ha => ?_)
      refine Links.attach_of_not_mem hq.rep ?_
      intro hal
      exact hapart a hal a ha rfl
    | succ p =>
      refine .cons (hq.congr fun a ha => ?_) (ih hnd' hp hvqs)
      obtain ⟨l', hl', hmem⟩ := exists_holds hQs hp
      refine Links.attach_of_not_mem hl'.rep ?_
      intro hal
      exact hapart a ha a (hmem a hal) rfl

/-- `_get` takes the message that the list of queues gives. -/
theorem getFirst_of_get (h : List.Forall₂ (Holds H.next) Qs qs)
    (hget : Fifo.get qs = some (v, qs')) :
    (MsMessagePriorityQueue.getFirst H Qs).1 = some v ∧
      List.Forall₂ (Holds H.next) (MsMessagePriorityQueue.getFirst H Qs).2 qs' := by
  induction h generalizing qs' with
  | nil => cases hget
  | @cons q l Qs qs hq hQs ih =>
    cases l with
    | nil =>
      obtain ⟨⟨w, rest⟩, hrest, heq⟩ := Option.map_eq_some_iff.mp hget
      cases heq
      obtain ⟨hfirst, hnext⟩ := ih hrest
      have hzero : ¬ q.totalSize > 0 := by simp [hq.size]
      rw [MsMessagePriorityQueue.getFirst, if_neg hzero]
      exact ⟨hfirst, .cons hq hnext⟩
    | cons w l =>
      cases hget
      have hpos : q.totalSize > 0 := by simp [hq.size]
      rw [MsMessagePriorityQueue.getFirst, if_pos hpos]
      exact ⟨hq.get.1, .cons hq.get.2 hQs⟩

end MsMessageUnsafeQueue

namespace MsMessagePriorityQueue

open MsMessageUnsafeQueue (forall₂_congr forall₂_put getFirst_of_get)

variable {Q Q' : MsMessagePriorityQueue} {H H' : Heap} {qs qs' : List (List Addr)} {v : Addr}

/-- The queue for each priority holds its messages, no message is held twice,
and the total is the number of all messages. -/
structure Holds (Q : MsMessagePriorityQueue) (H : Heap) (qs : List (List Addr)) : Prop where
  queues : List.Forall₂ (MsMessageUnsafeQueue.Holds H.next) Q.priQueue qs
  total : Q.totalSize = qs.flatten.length
  nodup : qs.flatten.Nodup

theorem holds_init (n : ℕ) (H : Heap) : (init n).Holds H (List.replicate n []) := by
  have hnil : (List.replicate n ([] : List Addr)).flatten = [] := by simp
  refine ⟨Fifo.forall₂_replicate MsMessageUnsafeQueue.holds_empty n, ?_, ?_⟩
  · rw [hnil]
    rfl
  · rw [hnil]
    exact List.nodup_nil

theorem Holds.congr (h : Q.Holds H qs) (hnext : ∀ a ∈ qs.flatten, H'.next a = H.next a) :
    Q.Holds H' qs :=
  ⟨forall₂_congr h.queues hnext, h.total, h.nodup⟩

/-- **`put` refines `Fifo.put`.** -/
theorem Holds.put (h : Q.Holds H qs) {p : ℕ} (hp : p < Q.priQueue.length)
    (hnone : H.next v = none) (hv : v ∉ qs.flatten) :
    (Q.put v p H).1.Holds (Q.put v p H).2 (Fifo.put qs p v) := by
  have hsome : Q.priQueue[p]? = some Q.priQueue[p] := List.getElem?_eq_getElem hp
  have hperm := Fifo.put_perm (hp.trans_eq h.queues.length_eq) v
  have hput : Q.put v p H =
      (⟨Q.priQueue.set p (Q.priQueue[p].put v H).1, Q.totalSize + 1⟩,
        (Q.priQueue[p].put v H).2) := by
    simp only [MsMessagePriorityQueue.put, hsome]
  rw [hput]
  refine ⟨forall₂_put h.queues h.nodup hsome hv hnone, ?_, ?_⟩
  · show Q.totalSize + 1 = _
    rw [hperm.length_eq, List.length_cons, h.total]
  · exact hperm.nodup_iff.mpr (List.nodup_cons.mpr ⟨hv, h.nodup⟩)

/-- **`get` refines `Fifo.get`**: it returns the message that the list of
queues gives, with its link cleared. -/
theorem Holds.get (h : Q.Holds H qs) (hget : Fifo.get qs = some (v, qs')) :
    (getFirst H Q.priQueue).1 = some v ∧ ∃ Q', Q.get H = some (v, Q', H.setNext v none) ∧
      Q'.Holds (H.setNext v none) qs' := by
  obtain ⟨hfirst, hqueues⟩ := getFirst_of_get h.queues hget
  have hflat := Fifo.flatten_of_get hget
  have htotal := h.total
  have hnodup := h.nodup
  rw [hflat] at htotal hnodup
  obtain ⟨hv, hnodup'⟩ := List.nodup_cons.mp hnodup
  refine ⟨hfirst, ⟨(getFirst H Q.priQueue).2, Q.totalSize - 1⟩, ?_, ?_, ?_, hnodup'⟩
  · have hne : Q.totalSize ≠ 0 := by simp [htotal]
    simp only [MsMessagePriorityQueue.get, if_neg hne, hfirst, Option.map_some]
  · refine forall₂_congr hqueues ?_
    intro a ha
    refine Function.update_of_ne ?_ _ _
    rintro rfl
    exact hv ha
  · show Q.totalSize - 1 = qs'.flatten.length
    rw [htotal]
    rfl

/-- `get` waits exactly on an empty list of queues. -/
theorem Holds.exists_get (h : Q.Holds H qs) (hne : Q.totalSize ≠ 0) :
    ∃ v qs', Fifo.get qs = some (v, qs') := by
  rcases hget : Fifo.get qs with - | ⟨v, qs'⟩
  · rw [h.total, Fifo.get_eq_none hget] at hne
    exact absurd rfl hne
  · exact ⟨v, qs', rfl⟩

end MsMessagePriorityQueue

/-! ### Runs -/

/-- The queue, the memory, the list of queues it stands for, and all messages
that were put and returned so far. -/
structure PriorityRun where
  queue : MsMessagePriorityQueue
  heap : Heap
  queues : List (List Addr)
  puts : List Addr
  gets : List Addr

/-- A call, or a change of the memory by another thread. -/
inductive PriorityEvent
  | put (v : Addr) (priority : ℕ)
  | get
  | outside (H : Heap)

namespace PriorityRun

def new (priorityNum : ℕ) (H : Heap) : PriorityRun :=
  ⟨.init priorityNum, H, List.replicate priorityNum [], [], []⟩

/-- One event; `get` waits on an empty queue. -/
def step (s : PriorityRun) : PriorityEvent → Option PriorityRun
  | .put v priority =>
    let r := s.queue.put v priority s.heap
    some { s with
      queue := r.1
      heap := r.2
      queues := Fifo.put s.queues priority v
      puts := s.puts ++ [v] }
  | .get =>
    (s.queue.get s.heap).map fun r =>
      { s with
        queue := r.2.1
        heap := r.2.2
        queues := ((Fifo.get s.queues).map Prod.snd).getD s.queues
        gets := s.gets ++ [r.1] }
  | .outside H => some { s with heap := H }

/-- What the callers guarantee: a message that is put has a priority in range
and a clear link, and is not in the queue; the number of messages fits into an
`int`; and nobody writes the link of a message in the queue. -/
def Scheduled (s : PriorityRun) : PriorityEvent → Prop
  | .put v priority =>
    priority < s.queue.priQueue.length ∧ s.heap.next v = none ∧ v ∉ s.queues.flatten ∧
      s.queues.flatten.length < INT_MAX
  | .get => True
  | .outside H => ∀ a ∈ s.queues.flatten, H.next a = s.heap.next a

instance (s : PriorityRun) (e : PriorityEvent) : Decidable (s.Scheduled e) :=
  match e with
  | .put _ _ => inferInstanceAs (Decidable (_ ∧ _ ∧ _ ∧ _))
  | .get => isTrue trivial
  | .outside _ => inferInstanceAs (Decidable (∀ a ∈ _, _))

/-- What holds in every state: the queue holds the messages of the list of
queues, and counts them; `get` on a queue that is not empty returns the oldest
message of the lowest priority, with its link cleared; and the messages that
were put are those that were returned and those that are in the queue. -/
structure Stable (s : PriorityRun) : Prop where
  holds : s.queue.Holds s.heap s.queues
  get : s.queue.totalSize ≠ 0 → ∃ p v q Q H,
    s.queues[p]? = some (v :: q) ∧ (∀ j < p, s.queues[j]? = some []) ∧
      (MsMessagePriorityQueue.getFirst s.heap s.queue.priQueue).1 = some v ∧
      s.queue.get s.heap = some (v, Q, H) ∧ H.next v = none ∧ Q.Holds H (s.queues.set p q)
  history : s.puts.Perm (s.gets ++ s.queues.flatten)

variable {s s' : PriorityRun} {e : PriorityEvent}

/-- One event keeps the queue in order, and the messages together. -/
theorem step_holds (hs : s.queue.Holds s.heap s.queues)
    (hist : s.puts.Perm (s.gets ++ s.queues.flatten)) (hg : s.Scheduled e)
    (hstep : step s e = some s') :
    s'.queue.Holds s'.heap s'.queues ∧ s'.puts.Perm (s'.gets ++ s'.queues.flatten) := by
  cases e with
  | put v p =>
    obtain ⟨hp, hnone, hv, -⟩ := hg
    obtain rfl := Option.some.inj hstep
    refine ⟨hs.put hp hnone hv, ?_⟩
    have hperm := Fifo.put_perm (hp.trans_eq hs.queues.length_eq) v
    calc List.Perm (s.puts ++ [v]) (v :: s.puts) := List.perm_append_singleton v s.puts
      List.Perm _ (v :: (s.gets ++ s.queues.flatten)) := hist.cons v
      List.Perm _ (s.gets ++ v :: s.queues.flatten) := List.perm_middle.symm
      List.Perm _ (s.gets ++ (Fifo.put s.queues p v).flatten) := hperm.symm.append_left s.gets
  | get =>
    obtain ⟨⟨v, Q, H⟩, hget, rfl⟩ := Option.map_eq_some_iff.mp hstep
    have hne : s.queue.totalSize ≠ 0 := by
      intro hzero
      simp [MsMessagePriorityQueue.get, hzero] at hget
    obtain ⟨w, qs', hfifo⟩ := hs.exists_get hne
    obtain ⟨-, Q', hget', hs'⟩ := hs.get hfifo
    rw [hget] at hget'
    cases hget'
    have hqueues : ((Fifo.get s.queues).map Prod.snd).getD s.queues = qs' := by rw [hfifo]; rfl
    refine ⟨?_, ?_⟩
    · show Q.Holds _ (((Fifo.get s.queues).map Prod.snd).getD s.queues)
      rw [hqueues]
      exact hs'
    · show s.puts.Perm (s.gets ++ [v] ++ (((Fifo.get s.queues).map Prod.snd).getD s.queues).flatten)
      rw [hqueues, List.append_assoc]
      rw [Fifo.flatten_of_get hfifo] at hist
      exact hist
  | outside H =>
    obtain rfl := Option.some.inj hstep
    exact ⟨hs.congr hg, hist⟩

/-- **The worker queue is a stable priority queue.**  In every run in which the
callers keep their promises, it behaves as a list of FIFO queues. -/
theorem stable (priorityNum : ℕ) (H : Heap) {es : List PriorityEvent}
    (hg : Guarded step Scheduled (new priorityNum H) es) :
    Always step Stable (new priorityNum H) es := by
  refine Always.of_guarded
    (I := fun s => s.queue.Holds s.heap s.queues ∧ s.puts.Perm (s.gets ++ s.queues.flatten))
    ?_ ?_ ?_ hg
  · rintro s e s' ⟨hs, hist⟩ hg hstep
    exact step_holds hs hist hg hstep
  · rintro s ⟨hs, hist⟩
    refine ⟨hs, ?_, hist⟩
    intro hne
    obtain ⟨v, qs', hfifo⟩ := hs.exists_get hne
    obtain ⟨hfirst, Q, hget, hs'⟩ := hs.get hfifo
    obtain ⟨p, q, hp, hbefore, rfl⟩ := Fifo.get_lowest hfifo
    exact ⟨p, v, q, Q, _, hp, hbefore, hfirst, hget, Function.update_self .., hs'⟩
  · refine ⟨MsMessagePriorityQueue.holds_init priorityNum H, ?_⟩
    show [].Perm ([] ++ (List.replicate priorityNum []).flatten)
    simp

/-- Two priorities, three messages, and one of them comes again. -/
theorem stable_two :
    Guarded step Scheduled (new 2 .empty)
      [.put 7 1, .put 8 0, .put 9 1, .get, .get, .put 8 1, .get, .get] ∧
    Always step Stable (new 2 .empty)
      [.put 7 1, .put 8 0, .put 9 1, .get, .get, .put 8 1, .get, .get] := by
  have hg : Guarded step Scheduled (new 2 .empty)
      [.put 7 1, .put 8 0, .put 9 1, .get, .get, .put 8 1, .get, .get] := by
    decide
  exact ⟨hg, stable 2 .empty hg⟩

/-- A message must not be put while it is in the queue, even though its link
is clear when it is the last one there: the queues would share it, and one of
them loses the message behind it. -/
example : (runEvents step (new 2 .empty) [.put 7 0, .put 7 1, .put 8 1, .get, .get]).map
    (fun s => (s.queue.totalSize, (MsMessagePriorityQueue.getFirst s.heap s.queue.priQueue).1)) =
      some (1, none) := by
  decide

end PriorityRun

end Xkim
