/-
MsgHandler/Consumers.lean

The worker threads at their queues.

The workers of a cluster all wait at one queue: those of the app cluster at a
`MsMessagePriorityQueue`, the others at a `MsMessageBlockQueue`.  Whoever puts
something in calls `pthread_cond_signal` once.  Both queues are monitors in the
sense of `MsgHandler/Monitor.lean`, over the models of the queues that
`MsgHandler/BlockQueue.lean` and `MsgHandler/PriorityQueue.lean` have for one
thread.

A message in a priority queue has a worker awake for it, as long as any sleeps.
This is not so for the other queue, since `putList` puts in many messages and
wakes one worker, which takes some of them with `get(count)`: the rest waits
until this worker comes back, or another message does.  But there always is
such a worker: never are all of them asleep.
-/
import MsgHandler.BlockQueue
import MsgHandler.Monitor
import MsgHandler.PriorityQueue

namespace Xkim

open Monitor (Allowed State start taken added Served)

/-! ### `MsMessageBlockQueue` -/

/-- A call that waits. -/
inductive BlockGet
  | get
  /-- `get(count)`, for a positive count. -/
  | getCount (count : ℕ+)
  deriving DecidableEq

/-- A call that does not, or a change of the memory by another thread. -/
inductive BlockPut
  | put (v : Addr)
  | putList (v : Addr)
  | outside (H : Heap)

/-- The event of the model with one thread. -/
def BlockPut.toEvent : BlockPut → BlockEvent
  | .put v => .put v
  | .putList v => .putList v
  | .outside H => .outside H

namespace BlockRun

/-- One turn of `while (_list_size == 0)`, and what follows it: the message
returned, with the messages that its links lead to. -/
def attempt : BlockGet → BlockRun → Option ((Addr × List Addr) × BlockRun)
  | .get, s => s.queue.get.map fun r => ((r.1, s.heap.chainFrom r.1), ⟨r.2, s.heap, []⟩)
  | .getCount count, s =>
    (s.queue.getCount count s.heap).map fun r =>
      ((r.1, r.2.2.chainFrom r.1), ⟨r.2.1, r.2.2, s.contents.drop count⟩)

/-- `put` and `putList`. -/
def produce (p : BlockPut) (s : BlockRun) : BlockRun := (s.step p.toEvent).getD s

/-- The queue as a monitor: `put` and `putList` signal once. -/
def monitor : Monitor BlockRun BlockGet BlockPut (Addr × List Addr) where
  attempt := attempt
  timeout _ := none
  produce := produce
  wake
    | .put _ | .putList _ => .one
    | .outside _ => .nobody

/-- See `Owned`; and what is put into the queue is allocated, and stays so. -/
def Promised (p : BlockPut) (s : BlockRun) : Prop :=
  s.Owned p.toEvent ∧
    match p with
    | .put v => v < s.heap.brk
    | .putList _ => True
    | .outside H => s.heap.brk ≤ H.brk

instance (p : BlockPut) (s : BlockRun) : Decidable (Promised p s) :=
  match p with
  | .put _ => inferInstanceAs (Decidable (_ ∧ _ < _))
  | .putList _ => inferInstanceAs (Decidable (_ ∧ True))
  | .outside _ => inferInstanceAs (Decidable (_ ∧ _ ≤ _))

/-- The messages that an operation adds. -/
def offer : BlockPut → BlockRun → List Addr
  | .put v, _ => [v]
  | .putList v, s => s.heap.chainFrom v
  | .outside _, _ => []

/-- The links and the count are those of the list, and its messages are allocated. -/
structure Sound (s : BlockRun) : Prop where
  rep : s.queue.Rep s.heap s.contents
  allocated : ∀ v ∈ s.contents, v < s.heap.brk

theorem sound_new (H : Heap) : (new H).Sound :=
  ⟨MsMessageBlockQueue.rep_empty, fun _ hv => nomatch hv⟩

theorem step_toEvent (p : BlockPut) (s : BlockRun) :
    s.step p.toEvent = some (produce p s) := by
  cases p <;> rfl

theorem contents_produce (p : BlockPut) (s : BlockRun) :
    (produce p s).contents = s.contents ++ offer p s := by
  cases p with
  | put v => rfl
  | putList v => rfl
  | outside H => exact (List.append_nil _).symm

/-- The call waits exactly if there is no message. -/
theorem attempt_eq_none_iff {s : BlockRun} (hs : s.Sound) (a : BlockGet) :
    s.attempt a = none ↔ s.contents = [] := by
  have hrep := hs.rep
  cases a with
  | get =>
    rw [attempt, Option.map_eq_none_iff]
    constructor
    · intro hnone
      by_contra hne
      obtain ⟨v, hv, -⟩ := hrep.get hne
      rw [hnone] at hv
      cases hv
    · intro hnil
      rw [hnil] at hrep
      exact hrep.get_nil
  | getCount count =>
    rw [attempt, Option.map_eq_none_iff]
    constructor
    · intro hnone
      by_contra hne
      obtain ⟨v, Q, next', hv, -⟩ := hrep.getCount hne count.pos
      rw [hnone] at hv
      cases hv
    · intro hnil
      rw [hnil] at hrep
      exact hrep.getCount_nil count

/-- **What a call takes** are the first messages: the links from the one that it
returns lead to all of them. -/
theorem attempt_some {s s' : BlockRun} (hs : s.Sound) {a : BlockGet} {r : Addr × List Addr}
    (h : s.attempt a = some (r, s')) : s'.Sound ∧ r.2 ++ s'.contents = s.contents := by
  have hne : s.contents ≠ [] := by
    intro hnil
    rw [(attempt_eq_none_iff hs a).mpr hnil] at h
    cases h
  cases a with
  | get =>
    obtain ⟨r', hr, he⟩ := Option.map_eq_some_iff.mp h
    obtain ⟨rfl, rfl⟩ := Prod.mk.inj he
    obtain ⟨v, hv, hchain⟩ := hs.rep.get hne
    obtain rfl := Option.some.inj (hr.symm.trans hv)
    refine ⟨sound_new s.heap, ?_⟩
    show s.heap.chainFrom v ++ [] = _
    rw [List.append_nil, Heap.chainFrom_eq hchain hs.allocated]
  | getCount count =>
    obtain ⟨r', hr, he⟩ := Option.map_eq_some_iff.mp h
    obtain ⟨rfl, rfl⟩ := Prod.mk.inj he
    obtain ⟨v, Q, next', hv, hchain, hleft⟩ := hs.rep.getCount hne count.pos
    obtain rfl := Option.some.inj (hr.symm.trans hv)
    refine ⟨⟨hleft, fun a ha => hs.allocated a (List.mem_of_mem_drop ha)⟩, ?_⟩
    have hfirst : { s.heap with next := next' }.chainFrom v = s.contents.take count :=
      Heap.chainFrom_eq hchain fun a ha => hs.allocated a (List.mem_of_mem_take ha)
    show { s.heap with next := next' }.chainFrom v ++ s.contents.drop count = _
    rw [hfirst, List.take_append_drop]

theorem produce_sound {p : BlockPut} {s : BlockRun} (hs : s.Sound) (hok : Promised p s) :
    (produce p s).Sound := by
  refine ⟨step_rep hs.rep hok.1 (step_toEvent p s), ?_⟩
  rw [contents_produce]
  intro a ha
  rcases List.mem_append.mp ha with ha | ha
  · have hlt := hs.allocated a ha
    cases p with
    | put v => exact hlt
    | putList v => exact hlt
    | outside H => exact hlt.trans_le hok.2
  · cases p with
    | put v => exact (List.mem_singleton.mp ha).symm ▸ hok.2
    | putList v => exact (hok.1.2.1 a ha).1
    | outside H => cases ha

theorem keeps : monitor.Keeps Sound Promised where
  attempt hs h := (attempt_some hs h).1
  produce := produce_sound

/-- **The workers share the messages.**  In every order of calls, signals and
wake-ups, the messages that the workers have found in memory behind the pointers
they were given, one after the other, and those in the queue are the messages
that were put in, in the order in which they were: none is lost, none is given to
two workers, none overtakes.  And never are all workers asleep while there is a
message. -/
theorem workers_share_messages {T : Type} [Fintype T] [DecidableEq T] [Nonempty T] (H : Heap)
    {es : List (Monitor.Event T BlockGet BlockPut)}
    (hg : Guarded (Monitor.step monitor) (Allowed Promised) (start (new H)) es) :
    Always (Monitor.step monitor)
      (fun s : State T BlockRun BlockGet BlockPut (Addr × List Addr) => s.resource.Sound ∧
        taken Prod.snd s ++ s.resource.contents = added offer s ∧
        (s.resource.contents ≠ [] → ∃ t, (s.status t).isAsleep = false)) (start (new H)) es := by
  have hnew := sound_new H
  refine (keeps.always_inv hnew hg).and (Always.and ?_ ?_)
  · exact Monitor.always_accounted keeps Monitor.congruence_eq contents Prod.snd offer
      (fun hs h => (attempt_some hs h).2) nofun (fun _ _ => (contents_produce _ _).symm) hnew rfl hg
  · refine Monitor.always_awake keeps (fun s => s.contents ≠ []) ?_ ?_ hnew hg
    · intro a s hs hwait hne
      exact hne ((attempt_eq_none_iff hs a).mp hwait)
    · intro p s _ _ hquiet hne
      cases p with
      | put | putList => cases hquiet
      | outside H => exact hne

/-- The memory with the list of the messages 4, 6 and 5. -/
def listHeap : Heap :=
  { Heap.empty with
    next := fun a => if a = 4 then some 6 else if a = 6 then some 5 else none
    brk := 8 }

/-- Two workers sleep at `get(2)`, and then a list of three messages wakes one of
them, which takes two. -/
def listEvents : List (Monitor.Event (Fin 2) BlockGet BlockPut) :=
  [.call 0 (.getCount 2), .call 1 (.getCount 2), .produce (.outside listHeap) none,
    .produce (.putList 4) (some 0), .resume 0]

/-- The worker comes back for the third message. -/
theorem workers_share_messages_list :
    Guarded (Monitor.step monitor) (Allowed Promised) (start (new .empty))
      (listEvents ++ [.call 0 .get]) ∧
    ∃ s, runEvents (Monitor.step monitor) (start (new .empty)) (listEvents ++ [.call 0 .get]) =
        some s ∧
      s.returned = [(0, (4, [4, 6])), (0, (5, [5]))] ∧
      taken Prod.snd s ++ s.resource.contents = added offer s := by
  have hg : Guarded (Monitor.step monitor) (Allowed Promised) (start (new .empty))
      (listEvents ++ [.call 0 .get]) := by
    decide
  obtain ⟨s, hs, hret⟩ := Option.map_eq_some_iff.mp (show (runEvents (Monitor.step monitor)
    (start (new .empty)) (listEvents ++ [.call 0 .get])).map (·.returned) =
      some [(0, (4, [4, 6])), (0, (5, [5]))] by decide)
  exact ⟨hg, s, hs, hret, ((workers_share_messages .empty hg).last hs).2.1⟩

/-- Until then it waits, and the other worker sleeps. -/
example : (runEvents (Monitor.step monitor) (start (new .empty)) listEvents).map
    (fun s => (s.resource.contents, s.status 0, s.status 1)) =
      some ([5], .outside, .asleep (.getCount 2)) := by
  decide

end BlockRun

/-! ### `MsMessagePriorityQueue` -/

/-- A call that does not wait, or a change of the memory by another thread. -/
inductive PriorityPut
  | put (v : Addr) (priority : ℕ)
  | outside (H : Heap)

/-- The event of the model with one thread. -/
def PriorityPut.toEvent : PriorityPut → PriorityEvent
  | .put v priority => .put v priority
  | .outside H => .outside H

namespace PriorityRun

/-- One turn of `while (_total_size == 0)`, and what follows it. -/
def attempt (_ : Unit) (s : PriorityRun) : Option (Addr × PriorityRun) :=
  (s.queue.get s.heap).map fun r =>
    (r.1, { s with
      queue := r.2.1
      heap := r.2.2
      queues := ((Fifo.get s.queues).map Prod.snd).getD s.queues
      gets := s.gets ++ [r.1] })

/-- `put`. -/
def produce (p : PriorityPut) (s : PriorityRun) : PriorityRun := (s.step p.toEvent).getD s

/-- The queue as a monitor: `put` signals once, for a priority in range. -/
def monitor : Monitor PriorityRun Unit PriorityPut Addr where
  attempt := attempt
  timeout _ := none
  produce := produce
  wake
    | .put _ _ => .one
    | .outside _ => .nobody

/-- See `Scheduled`. -/
def Promised (p : PriorityPut) (s : PriorityRun) : Prop := s.Scheduled p.toEvent

instance (p : PriorityPut) (s : PriorityRun) : Decidable (Promised p s) :=
  inferInstanceAs (Decidable (s.Scheduled p.toEvent))

/-- The message that an operation adds. -/
def offer : PriorityPut → PriorityRun → List Addr
  | .put v _, _ => [v]
  | .outside _, _ => []

/-- The queue holds the messages of the list of queues. -/
def Sound (s : PriorityRun) : Prop := s.queue.Holds s.heap s.queues

/-- A call on a queue with messages takes the one that the list of queues gives. -/
theorem get_of_ne_nil {s : PriorityRun} (hs : s.Sound) (hne : s.queue.totalSize ≠ 0) :
    ∃ v Q qs, s.queue.get s.heap = some (v, Q, s.heap.setNext v none) ∧
      Q.Holds (s.heap.setNext v none) qs ∧ Fifo.get s.queues = some (v, qs) := by
  obtain ⟨v, qs, hfifo⟩ := hs.exists_get hne
  obtain ⟨-, Q, hget, hQ⟩ := hs.get hfifo
  exact ⟨v, Q, qs, hget, hQ, hfifo⟩

/-- The call waits only if there is no message. -/
theorem attempt_eq_none {s : PriorityRun} (hs : s.Sound) (h : s.attempt () = none) :
    s.queues.flatten = [] := by
  refine List.eq_nil_of_length_eq_zero (hs.total.symm.trans ?_)
  by_contra hne
  obtain ⟨v, Q, qs, hget, -, -⟩ := get_of_ne_nil hs hne
  rw [attempt, hget] at h
  cases h

/-- **What a call takes** is the first message of all. -/
theorem attempt_some {s s' : PriorityRun} (hs : s.Sound) {v : Addr}
    (h : s.attempt () = some (v, s')) :
    s'.Sound ∧ v :: s'.queues.flatten = s.queues.flatten := by
  obtain ⟨r, hr, he⟩ := Option.map_eq_some_iff.mp h
  obtain ⟨rfl, rfl⟩ := Prod.mk.inj he
  have hne : s.queue.totalSize ≠ 0 := by
    intro hzero
    rw [MsMessagePriorityQueue.get, if_pos hzero] at hr
    cases hr
  obtain ⟨v, Q, qs, hget, hQ, hfifo⟩ := get_of_ne_nil hs hne
  obtain rfl := Option.some.inj (hr.symm.trans hget)
  unfold Sound
  dsimp only
  rw [hfifo, Option.map_some, Option.getD_some, Fifo.flatten_of_get hfifo]
  exact ⟨hQ, rfl⟩

theorem flatten_produce {p : PriorityPut} {s : PriorityRun} (hs : s.Sound) (hok : Promised p s) :
    (s.queues.flatten ++ offer p s).Perm (produce p s).queues.flatten := by
  cases p with
  | put v priority =>
    have hlt : priority < s.queues.length := hs.queues.length_eq ▸ hok.1
    exact (List.perm_append_singleton v _).trans (Fifo.put_perm hlt v).symm
  | outside H =>
    show (s.queues.flatten ++ []).Perm s.queues.flatten
    rw [List.append_nil]

theorem produce_sound {p : PriorityPut} {s : PriorityRun} (hs : s.Sound) (hok : Promised p s) :
    (produce p s).Sound := by
  cases p with
  | put v priority => exact hs.put hok.1 hok.2.1 hok.2.2.1
  | outside H => exact hs.congr hok

theorem keeps : monitor.Keeps Sound Promised where
  attempt hs h := (attempt_some hs h).1
  produce := produce_sound

/-- **The app workers share the messages.**  In every order of calls, signals and
wake-ups, every message that was put in has been given to one worker, or is in
the queue.  And as long as a worker sleeps, there is another one awake for each
message in the queue. -/
theorem app_workers_share_messages {T : Type} [Fintype T] [DecidableEq T] (priorityNum : ℕ)
    (H : Heap) {es : List (Monitor.Event T Unit PriorityPut)}
    (hg : Guarded (Monitor.step monitor) (Allowed Promised) (start (new priorityNum H)) es) :
    Always (Monitor.step monitor)
      (fun s : State T PriorityRun Unit PriorityPut Addr => s.resource.Sound ∧
        (taken ([·]) s ++ s.resource.queues.flatten).Perm (added offer s) ∧
        Served s.resource.queues.flatten.length s.status) (start (new priorityNum H)) es := by
  have hnew : (new priorityNum H).Sound := MsMessagePriorityQueue.holds_init priorityNum H
  refine (keeps.always_inv hnew hg).and (Always.and ?_ ?_)
  · refine Monitor.always_accounted keeps Monitor.congruence_perm (fun s => s.queues.flatten)
      ([·]) offer ?_ nofun flatten_produce hnew (by simp [new]) hg
    intro _ s v s' hs h
    exact List.Perm.of_eq (attempt_some hs h).2
  · refine Monitor.always_served keeps (fun s => s.queues.flatten.length) ?_ ?_ ?_ ?_ hnew hg
    · intro _ s hs h
      simp [attempt_eq_none hs h]
    · intro _ s v s' hs h
      rw [← (attempt_some hs h).2, List.length_cons]
      exact .inr (le_of_eq (Nat.cast_succ _).symm)
    · intro p s _ _ hquiet
      cases p with
      | put => cases hquiet
      | outside => exact le_rfl
    · intro p s hs hok hone
      have hlen := (flatten_produce hs hok).length_eq
      cases p with
      | put v priority =>
        rw [List.length_append] at hlen
        exact le_of_eq (by exact_mod_cast hlen.symm)
      | outside => cases hone

/-- A worker sleeps and is woken, but another one comes first, so that it sleeps
again; then two messages come. -/
def stolenEvents : List (Monitor.Event (Fin 2) Unit PriorityPut) :=
  [.call 0 (), .produce (.put 7 1) (some 0), .call 1 (), .resume 0,
    .produce (.put 8 1) (some 0), .produce (.put 9 0) none, .resume 0]

theorem app_workers_share_messages_stolen :
    Guarded (Monitor.step monitor) (Allowed Promised) (start (new 2 .empty)) stolenEvents ∧
    ∃ s, runEvents (Monitor.step monitor) (start (new 2 .empty)) stolenEvents = some s ∧
      s.returned = [(1, 7), (0, 9)] ∧ Served s.resource.queues.flatten.length s.status := by
  have hg : Guarded (Monitor.step monitor) (Allowed Promised) (start (new 2 .empty))
      stolenEvents := by
    decide
  obtain ⟨s, hs, hret⟩ := Option.map_eq_some_iff.mp (show (runEvents (Monitor.step monitor)
    (start (new 2 .empty)) stolenEvents).map (·.returned) = some [(1, 7), (0, 9)] by decide)
  exact ⟨hg, s, hs, hret, ((app_workers_share_messages 2 .empty hg).last hs).2.2⟩

end PriorityRun

end Xkim
