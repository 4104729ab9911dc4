/-
MsgHandler/BatchGet.lean

Several values at once from `util::PriorityQueue`
(`framework/lib/priority_queue.cpp`), the queue with a `SimpleQueue` for each
priority.

`getM(v, want)` should be as many calls of `get()` as there are values, at most
`want`, and wait while there is none.  Its loop over the queues is right: it is
so many calls of `get()`, down to the nodes (`getMLoop_spec`).  But it asks for
the number of values only once, before it waits:

    int size = total_size();
    while (size == 0)
        pthread_cond_wait(&_cond, &_mutex);

So a call that finds the queue empty never returns, whatever is put later
(`never_returns`), and the others are as they should be (`always_due_iff`).
-/
import MsgHandler.Fifo
import MsgHandler.Run
import MsgHandler.SimpleQueue

namespace Xkim

namespace Util

/-- `util::PriorityQueue` after `init`: its `_pri_queue`, of which there are
`_priority_num`. -/
abbrev PriorityQueue := List SimpleQueue

/-- Why a call does not return: it waits, or a NULL is followed. -/
inductive Stop
  | waits
  | null
  deriving DecidableEq, Repr

namespace PriorityQueue

/-- `_priority_num` of `PriorityQueue(priority_num)`. -/
def priorityCount (priorityNum : ℤ) : ℕ := if priorityNum ≤ 0 then 1 else priorityNum.toNat

/-- `PriorityQueue(priority_num)` and `init()`. -/
def init (priorityNum : ℤ) : PriorityQueue :=
  List.replicate (priorityCount priorityNum) SimpleQueue.opened

/-- `total_size()`. -/
def totalSize (Q : PriorityQueue) : ℤ := (Q.map SimpleQueue.listSize).sum

/-- `_get()`. -/
def getFirst : PriorityQueue → Option (Addr × PriorityQueue)
  | [] => some (0, [])
  | q :: Q =>
    if q.listSize > 0 then q.get.map fun r => (r.1, r.2 :: Q)
    else (getFirst Q).map fun r => (r.1, q :: r.2)

/-- `get()`. -/
def get (Q : PriorityQueue) : Except Stop (Addr × PriorityQueue) :=
  if totalSize Q = 0 then .error .waits else (getFirst Q).elim (.error .null) .ok

/-- `get()`, `n` times. -/
def getTimes : ℕ → PriorityQueue → Except Stop (List Addr × PriorityQueue)
  | 0, Q => .ok ([], Q)
  | n + 1, Q => (get Q).bind fun r => (getTimes n r.2).map fun s => (r.1 :: s.1, s.2)

/-- The loop of `getM` over the queues: the values that it writes from `v + cur`
on, and the queues. -/
def getMLoop (c : ℤ) : ℤ → PriorityQueue → Option (List Addr × PriorityQueue)
  | _, [] => some ([], [])
  | cur, q :: Q =>
    (q.getM (c - cur)).bind fun r =>
      if r.1 = c - cur then some (r.2.1, r.2.2 :: Q)
      else (getMLoop c (cur + r.1) Q).map fun s => (r.2.1 ++ s.1, r.2.2 :: s.2)

/-- What `getM(v, want)` does when it does not wait any more: the number
returned, the values written, and the queue. -/
def getMRest (Q : PriorityQueue) (want size : ℤ) : Option (ℤ × List Addr × PriorityQueue) :=
  let c := if want > size then size else want
  (getMLoop c 0 Q).map fun r => (c, r)

/-- `put(v, priority)`; there is no queue with a negative number. -/
def put (Q : PriorityQueue) (v : Addr) (priority : ℤ) : Option PriorityQueue :=
  if priority ≥ Q.length then some Q
  else if priority < 0 then none
  else some (Q.modify priority.toNat fun q => q.put v)

/-! ### What the queues hold -/

variable {q q' : SimpleQueue} {Q Q' Q'' : PriorityQueue} {l vs ws : List Addr}
  {qs : List (List Addr)} {v : Addr} {n m : ℕ}

/-- Each queue holds its values. -/
def Holds (Q : PriorityQueue) (qs : List (List Addr)) : Prop :=
  List.Forall₂ SimpleQueue.Holds Q qs

theorem holds_init (priorityNum : ℤ) :
    Holds (init priorityNum) (List.replicate (priorityCount priorityNum) []) :=
  Fifo.forall₂_replicate SimpleQueue.holds_opened _

/-- **`total_size` is the number of all values.** -/
theorem Holds.totalSize_eq (h : Holds Q qs) : totalSize Q = qs.flatten.length := by
  induction h with
  | nil => rfl
  | cons hq _ ih =>
    rw [totalSize, List.map_cons, List.sum_cons, hq.size, List.flatten_cons, List.length_append,
      Nat.cast_add]
    exact congrArg _ ih

theorem Holds.put {priority : ℤ} (h : Holds Q qs) (hput : put Q v priority = some Q') :
    Holds Q' (Fifo.put qs priority.toNat v) := by
  unfold PriorityQueue.put at hput
  split_ifs at hput with hge hneg
  · obtain rfl := Option.some.inj hput
    rw [Fifo.put_of_le (by rw [← h.length_eq]; omega)]
    exact h
  · obtain rfl := Option.some.inj hput
    clear hge hneg hput
    generalize priority.toNat = p
    induction h generalizing p with
    | nil => cases p <;> exact .nil
    | cons hq hQ ih =>
      cases p with
      | zero => exact .cons (hq.put v) hQ
      | succ p => exact .cons hq (ih p)

/-! ### One value after the other -/

theorem get_of_getFirst {r : Addr × PriorityQueue} (hne : totalSize Q ≠ 0)
    (hfirst : getFirst Q = some r) : get Q = .ok r := by
  rw [get, if_neg hne, hfirst]
  rfl

theorem getFirst_of_get {r : Addr × PriorityQueue} (hget : get Q = .ok r) :
    totalSize Q ≠ 0 ∧ getFirst Q = some r := by
  unfold get at hget
  split_ifs at hget with hzero
  refine ⟨hzero, ?_⟩
  rcases hfirst : getFirst Q with - | r'
  · rw [hfirst] at hget
    cases hget
  · rw [hfirst] at hget
    cases hget
    rfl

/-- The first queue has a value. -/
theorem get_cons (hq : q.Holds (v :: l)) (hQ : Holds Q qs) (hnode : q.getNode = some (v, q')) :
    get (q :: Q) = .ok (v, q' :: Q) := by
  have hpos : q.listSize > 0 := by
    rw [hq.size, List.length_cons]
    omega
  refine get_of_getFirst ?_ ?_
  · have htotal := Holds.totalSize_eq (.cons hq hQ : Holds (q :: Q) ((v :: l) :: qs))
    rw [List.flatten_cons, List.length_append, List.length_cons] at htotal
    omega
  · rw [getFirst, if_pos hpos, SimpleQueue.get, if_pos hpos, hnode]
    rfl

/-- The first queue is empty. -/
theorem get_skip (hq : q.Holds []) (hget : get Q = .ok (v, Q')) :
    get (q :: Q) = .ok (v, q :: Q') := by
  obtain ⟨hne, hfirst⟩ := getFirst_of_get hget
  have hzero : q.listSize = 0 := hq.size
  refine get_of_getFirst ?_ ?_
  · rw [totalSize, List.map_cons, List.sum_cons, hzero, zero_add]
    exact hne
  · rw [getFirst, if_neg (by rw [hzero]; decide), hfirst]
    rfl

theorem getTimes_succ (hget : get Q = .ok (v, Q')) (hrest : getTimes n Q' = .ok (vs, Q'')) :
    getTimes (n + 1) Q = .ok (v :: vs, Q'') := by
  rw [getTimes, hget]
  show (getTimes n Q').map _ = _
  rw [hrest]
  rfl

theorem getTimes_succ_inv (h : getTimes (n + 1) Q = .ok (vs, Q'')) :
    ∃ v vs' Q', vs = v :: vs' ∧ get Q = .ok (v, Q') ∧ getTimes n Q' = .ok (vs', Q'') := by
  rw [getTimes] at h
  rcases hget : get Q with e | ⟨v, Q'⟩
  · rw [hget] at h
    cases h
  · rw [hget] at h
    have hmap : (getTimes n Q').map (fun s => (v :: s.1, s.2)) = .ok (vs, Q'') := h
    rcases hrest : getTimes n Q' with e | ⟨vs', Q₁⟩
    · rw [hrest] at hmap
      cases hmap
    · rw [hrest] at hmap
      cases hmap
      exact ⟨v, vs', Q', rfl, rfl, hrest⟩

theorem getTimes_add (h : getTimes n Q = .ok (vs, Q')) (h' : getTimes m Q' = .ok (ws, Q'')) :
    getTimes (n + m) Q = .ok (vs ++ ws, Q'') := by
  induction n generalizing Q vs with
  | zero =>
    cases h
    rw [Nat.zero_add]
    exact h'
  | succ n ih =>
    obtain ⟨v, vs', Q₁, rfl, hget, hrest⟩ := getTimes_succ_inv h
    rw [Nat.succ_add]
    exact getTimes_succ hget (ih hrest)

theorem getTimes_skip (hq : q.Holds []) (h : getTimes n Q = .ok (vs, Q')) :
    getTimes n (q :: Q) = .ok (vs, q :: Q') := by
  induction n generalizing Q vs with
  | zero =>
    cases h
    rfl
  | succ n ih =>
    obtain ⟨v, vs', Q₁, rfl, hget, hrest⟩ := getTimes_succ_inv h
    exact getTimes_succ (get_skip hq hget) (ih hrest)

/-- As long as the first queue has values. -/
theorem getTimes_cons (hq : q.Holds l) (hQ : Holds Q qs) (hn : n ≤ l.length)
    (h : SimpleQueue.getTimes n q = some (vs, q')) :
    getTimes n (q :: Q) = .ok (vs, q' :: Q) := by
  induction n generalizing q l vs with
  | zero =>
    cases h
    rfl
  | succ n ih =>
    cases l with
    | nil => exact absurd hn (Nat.not_succ_le_zero n)
    | cons v l =>
      obtain ⟨q₁, hnode, hq₁⟩ := hq.getNode
      rw [SimpleQueue.getTimes, hnode, Option.bind_some] at h
      obtain ⟨⟨vs', q''⟩, hrest, heq⟩ := Option.map_eq_some_iff.mp h
      cases heq
      exact getTimes_succ (get_cons hq hQ hnode) (ih hq₁ (Nat.le_of_succ_le_succ hn) hrest)

/-! ### Several values at once -/

/-- **The loop of `getM`** is `n` calls of `get()`, which take the first `n` values
of all. -/
theorem Holds.getMLoop_spec {c cur : ℤ} (h : Holds Q qs) (hn : n ≤ qs.flatten.length)
    (hc : c - cur = n) : ∃ Q', getMLoop c cur Q = some (qs.flatten.take n, Q') ∧
      getTimes n Q = .ok (qs.flatten.take n, Q') ∧ Holds Q' (Fifo.drop n qs) := by
  induction h generalizing n cur with
  | nil =>
    obtain rfl : n = 0 := Nat.le_zero.mp hn
    exact ⟨[], rfl, rfl, .nil⟩
  | @cons q l Q qs hq hQ ih =>
    obtain ⟨q', htimes, hq'⟩ := hq.getTimes (min_le_right n l.length)
    have hM := hq.getM_eq n
    rw [htimes, Option.map_some] at hM
    rw [getMLoop, hc, hM, Option.bind_some, List.flatten_cons]
    rcases le_or_gt n l.length with hle | hlt
    · rw [min_eq_left hle] at htimes hq' ⊢
      rw [if_pos rfl, List.take_append_of_le_length hle]
      refine ⟨q' :: Q, rfl, getTimes_cons hq hQ hle htimes, ?_⟩
      rw [Fifo.drop, Nat.sub_eq_zero_of_le hle, Fifo.drop_zero]
      exact .cons hq' hQ
    · rw [min_eq_right hlt.le] at htimes hq' ⊢
      rw [List.take_length] at htimes ⊢
      rw [List.drop_length] at hq'
      obtain ⟨k, rfl⟩ : ∃ k, n = l.length + k := ⟨n - l.length, by omega⟩
      rw [List.flatten_cons, List.length_append] at hn
      have hk : k ≤ qs.flatten.length := by omega
      have hcur : c - (cur + l.length) = k := by
        push_cast at hc
        omega
      obtain ⟨Q', hloop, hrest, hQ'⟩ := ih hk hcur
      have hshort : ¬ ((l.length : ℕ) : ℤ) = ((l.length + k : ℕ) : ℤ) := by omega
      refine ⟨q' :: Q', ?_, ?_, ?_⟩
      · rw [if_neg hshort, hloop, List.take_length_add_append]
        rfl
      · rw [List.take_length_add_append]
        exact getTimes_add (getTimes_cons hq hQ le_rfl htimes) (getTimes_skip hq' hrest)
      · rw [Fifo.drop, List.drop_eq_nil_of_le hlt.le, Nat.add_sub_cancel_left]
        exact .cons hq' hQ'

/-- **`getM` when it does not wait** returns as many values as there are, at most
`want`. -/
theorem Holds.getMRest_spec {want : ℤ} (h : Holds Q qs) (hwant : 0 ≤ want) :
    ∃ c : ℕ, ∃ Q', (c : ℤ) = min want qs.flatten.length ∧
      getMRest Q want (totalSize Q) = some ((c : ℤ), qs.flatten.take c, Q') ∧
      getTimes c Q = .ok (qs.flatten.take c, Q') ∧ Holds Q' (Fifo.drop c qs) := by
  set c := min want.toNat qs.flatten.length with hc
  have hmin : (c : ℤ) = min want qs.flatten.length := by omega
  have hif : (if want > totalSize Q then totalSize Q else want) = c := by
    rw [hmin, h.totalSize_eq]
    split_ifs <;> omega
  obtain ⟨Q', hloop, htimes, hQ'⟩ := h.getMLoop_spec (min_le_right _ _) (sub_zero (c : ℤ))
  refine ⟨c, Q', hmin, ?_, htimes, hQ'⟩
  rw [getMRest, hif, hloop]
  rfl

/-- **`get` takes the first value of all.** -/
theorem Holds.get (h : Holds Q qs) (hget : get Q = .ok (v, Q')) : Holds Q' (Fifo.drop 1 qs) := by
  have hne := (getFirst_of_get hget).1
  have hone : 1 ≤ qs.flatten.length := by
    rw [h.totalSize_eq] at hne
    omega
  obtain ⟨Q₁, -, htimes, hQ₁⟩ := h.getMLoop_spec hone (sub_zero ((1 : ℕ) : ℤ))
  obtain ⟨w, vs, Q₂, -, hget', hrest⟩ := getTimes_succ_inv htimes
  cases hget.symm.trans hget'
  cases hrest
  exact hQ₁

end PriorityQueue

/-! ### The calls of all threads -/

/-- The queue in memory, and the FIFO queues it should be. -/
structure QueueRun where
  queue : PriorityQueue
  queues : List (List Addr)

/-- A call that comes to its end. -/
inductive QueueCall
  | put (v : Addr) (priority : ℤ)
  | get
  | getM (want : ℤ)
  deriving DecidableEq, Repr

namespace QueueRun

open PriorityQueue

/-- After `init()`. -/
def new (priorityNum : ℤ) : QueueRun :=
  ⟨init priorityNum, List.replicate (priorityCount priorityNum) []⟩

/-- One call; on an empty queue `get` and `getM` wait.  The counts are `int`s, so that
there is no call for a value that would be the one after `INT_MAX`. -/
def step (s : QueueRun) : QueueCall → Option QueueRun
  | .put v priority =>
    if s.queues.flatten.length < INT_MAX then
      (put s.queue v priority).map fun Q => ⟨Q, Fifo.put s.queues priority.toNat v⟩
    else none
  | .get => (get s.queue).toOption.map fun r => ⟨r.2, Fifo.drop 1 s.queues⟩
  | .getM want =>
    if totalSize s.queue = 0 then none
    else (getMRest s.queue want (totalSize s.queue)).map fun r =>
      ⟨r.2.2, Fifo.drop r.1.toNat s.queues⟩

/-- The queue is what it should be, and there is at least one priority. -/
structure Sound (s : QueueRun) : Prop where
  holds : Holds s.queue s.queues
  priorities : 0 < s.queues.length

variable {s s' : QueueRun} {call : QueueCall}

theorem sound_new (priorityNum : ℤ) : (new priorityNum).Sound := by
  refine ⟨holds_init priorityNum, ?_⟩
  show 0 < (List.replicate (priorityCount priorityNum) []).length
  rw [List.length_replicate, priorityCount]
  split_ifs <;> omega

theorem Sound.step (h : s.Sound) (hwant : ∀ want, call = .getM want → 0 ≤ want)
    (hstep : s.step call = some s') : s'.Sound := by
  cases call with
  | put v priority =>
    obtain ⟨-, hstep⟩ := Option.ite_none_right_eq_some.mp hstep
    obtain ⟨Q, hput, rfl⟩ := Option.map_eq_some_iff.mp hstep
    exact ⟨h.holds.put hput, h.priorities.trans_eq (Fifo.length_put _ _ _).symm⟩
  | get =>
    obtain ⟨⟨v, Q⟩, hoption, rfl⟩ := Option.map_eq_some_iff.mp hstep
    have hget : get s.queue = .ok (v, Q) := by
      rcases hok : get s.queue with e | r
      · rw [hok] at hoption
        cases hoption
      · rw [hok] at hoption
        cases hoption
        rfl
    exact ⟨h.holds.get hget, h.priorities.trans_eq (Fifo.length_drop _ _).symm⟩
  | getM want =>
    rw [QueueRun.step] at hstep
    split_ifs at hstep
    obtain ⟨c, Q, -, hrest, -, hQ⟩ := h.holds.getMRest_spec (hwant want rfl)
    rw [hrest] at hstep
    obtain rfl := Option.some.inj hstep
    exact ⟨hQ, h.priorities.trans_eq (Fifo.length_drop _ _).symm⟩

/-- **Every run of calls keeps the queue what it should be.** -/
theorem sound_of_run {priorityNum : ℤ} {calls : List QueueCall}
    (hwants : ∀ want, .getM want ∈ calls → 0 ≤ want)
    (hrun : runEvents QueueRun.step (new priorityNum) calls = some s) : s.Sound := by
  have halways : Always QueueRun.step Sound (new priorityNum) calls := by
    refine Always.of_guarded (I := Sound) (G := fun _ call => ∀ want, call = .getM want → 0 ≤ want)
      ?_ (fun _ h => h) (sound_new priorityNum) (Guarded.of_forall ?_)
    · intro s call s' h hwant hstep
      exact h.step hwant hstep
    · rintro call hcall - want rfl
      exact hwants want hcall
  exact halways.last hrun

end QueueRun

/-! ### One call of `getM` -/

/-- Where a call of `getM` is: it has read `size` and holds the mutex; it waits;
or it has returned. -/
inductive GetMState
  | entered (size : ℤ)
  | waiting (size : ℤ)
  | returned (c : ℤ) (v : List Addr)
  deriving DecidableEq, Repr

/-- A call of `getM`, and the queue. -/
structure BatchRun extends QueueRun where
  want : ℤ
  state : GetMState

/-- Another thread makes a call, or the thread of `getM` goes on: at first, and
whenever it is woken. -/
inductive BatchEvent
  | other (call : QueueCall)
  | resume
  deriving DecidableEq, Repr

namespace BatchRun

open PriorityQueue

/-- `getM(v, want)` up to its loop. -/
def enter (s : QueueRun) (want : ℤ) : BatchRun := ⟨s, want, .entered (totalSize s.queue)⟩

/-- `while (size == 0)`, and what follows. -/
def test (s : BatchRun) (size : ℤ) : Option BatchRun :=
  if size = 0 then some { s with state := .waiting size }
  else (getMRest s.queue s.want size).map fun r =>
    { s with
      queue := r.2.2
      queues := Fifo.drop r.1.toNat s.queues
      state := .returned r.1 r.2.1 }

/-- The thread of `getM` goes on. -/
def resume (s : BatchRun) : Option BatchRun :=
  match s.state with
  | .entered size => s.test size
  | .waiting size => s.test size
  | .returned _ _ => none

/-- One event; nobody else has the mutex before the call waits or has
returned. -/
def step (s : BatchRun) : BatchEvent → Option BatchRun
  | .other call =>
    match s.state with
    | .entered _ => none
    | _ => (s.toQueueRun.step call).map fun t => { s with toQueueRun := t }
  | .resume => s.resume

/-- **The answer that is due**: as many values as there are, at most `want`, and
at least one; the values that so many calls of `get()` return, which are the
first of all; and the queue as these calls leave it. -/
def Answers (s s' : BatchRun) : Prop :=
  ∃ c : ℕ, (c : ℤ) = min s.want s.queues.flatten.length ∧ 1 ≤ c ∧
    s'.state = .returned c (s.queues.flatten.take c) ∧
    getTimes c s.queue = .ok (s.queues.flatten.take c, s'.queue) ∧
    s'.queues = Fifo.drop c s.queues ∧ Holds s'.queue s'.queues

/-- **What is due next** in a call that has not returned: it waits while the queue
is empty, and otherwise answers. -/
structure Due (s : BatchRun) : Prop where
  waits : s.queues.flatten = [] → (∀ c v, s.state ≠ .returned c v) →
    ∃ size, s.resume = some { s with state := .waiting size }
  answers : s.queues.flatten ≠ [] → (∀ c v, s.state ≠ .returned c v) →
    ∃ s', s.resume = some s' ∧ Answers s s'

variable {s : QueueRun} {want : ℤ} {b b' : BatchRun}

/-- A call that finds values answers at once. -/
theorem answers_enter (h : s.Sound) (hwant : 1 ≤ want) (hne : totalSize s.queue ≠ 0) :
    ∃ b, (enter s want).resume = some b ∧ Answers (enter s want) b := by
  have hnonneg : 0 ≤ want := by omega
  obtain ⟨c, Q, hc, hrest, htimes, hQ⟩ := h.holds.getMRest_spec hnonneg
  refine ⟨⟨⟨Q, Fifo.drop c s.queues⟩, want, .returned c (s.queues.flatten.take c)⟩, ?_,
    c, hc, ?_, rfl, htimes, rfl, hQ⟩
  · show test _ _ = _
    rw [test, if_neg hne]
    show (getMRest s.queue want (totalSize s.queue)).map _ = _
    rw [hrest]
    rfl
  · rw [h.holds.totalSize_eq] at hne
    omega

/-- After a call has returned, it does not matter any more. -/
theorem step_returned {e : BatchEvent} {c : ℤ} {v : List Addr} (h : b.state = .returned c v)
    (hstep : b.step e = some b') : b'.state = .returned c v := by
  cases e with
  | other call =>
    simp only [step, h] at hstep
    obtain ⟨t, -, rfl⟩ := Option.map_eq_some_iff.mp hstep
    rfl
  | resume =>
    simp only [step, resume, h] at hstep
    cases hstep

/-- The local `size` of the call is 0. -/
def Stuck (b : BatchRun) : Prop := b.state = .entered 0 ∨ b.state = .waiting 0

theorem Stuck.step {e : BatchEvent} (h : b.Stuck) (hstep : b.step e = some b') : b'.Stuck := by
  cases e with
  | other call =>
    rcases h with h | h
    · simp only [BatchRun.step, h] at hstep
      cases hstep
    · simp only [BatchRun.step, h] at hstep
      obtain ⟨t, -, rfl⟩ := Option.map_eq_some_iff.mp hstep
      exact .inr rfl
  | resume =>
    have htest : b.test 0 = some b' := by
      rcases h with h | h
      · simpa only [BatchRun.step, BatchRun.resume, h] using hstep
      · simpa only [BatchRun.step, BatchRun.resume, h] using hstep
    rw [test, if_pos rfl] at htest
    obtain rfl := Option.some.inj htest
    exact .inr rfl

/-- **A call that finds the queue empty never returns**, whatever the other threads
do. -/
theorem never_returns (hzero : totalSize s.queue = 0) (es : List BatchEvent) :
    Always BatchRun.step Stuck (enter s want) es := by
  refine Always.of_guarded (I := Stuck) (G := fun _ _ => True) ?_ (fun _ h => h) ?_
    (guarded_true _ es)
  · intro b e b' h _ hstep
    exact h.step hstep
  · left
    rw [enter, hzero]

/-- So nothing is due any more that it does, as soon as there is a value. -/
theorem Stuck.not_due (h : b.Stuck) (hne : b.queues.flatten ≠ []) : ¬ b.Due := by
  intro hdue
  have hrunning : ∀ c v, b.state ≠ .returned c v := by
    intro c v hret
    rcases h with h | h <;> cases h.symm.trans hret
  obtain ⟨b', hresume, c, -, -, hret, -⟩ := hdue.answers hne hrunning
  have hstuck : b'.Stuck := Stuck.step (e := .resume) h hresume
  rcases hstuck with h' | h' <;> cases h'.symm.trans hret

/-- Another thread can put a value while the call waits. -/
theorem exists_put (h : s.Sound) (hzero : totalSize s.queue = 0) (want : ℤ) :
    ∃ es b, runEvents BatchRun.step (enter s want) es = some b ∧ b.queues.flatten ≠ [] := by
  have hlen : s.queue.length = s.queues.length := h.holds.length_eq
  have hpos := h.priorities
  have hput : s.step (.put 0 0) =
      some ⟨s.queue.modify 0 fun q => q.put 0, Fifo.put s.queues 0 0⟩ := by
    have hnil : s.queues.flatten.length = 0 := by
      rw [h.holds.totalSize_eq] at hzero
      exact_mod_cast hzero
    rw [QueueRun.step, hnil, if_pos (by decide), PriorityQueue.put, if_neg (by omega),
      if_neg (by decide)]
    rfl
  refine ⟨[.resume, .other (.put 0 0)],
    ⟨⟨s.queue.modify 0 fun q => q.put 0, Fifo.put s.queues 0 0⟩, want, .waiting 0⟩, ?_, ?_⟩
  · have hresume : (enter s want).step .resume = some ⟨s, want, .waiting 0⟩ := by
      show test _ _ = _
      rw [hzero]
      rfl
    have hother : BatchRun.step ⟨s, want, .waiting 0⟩ (.other (.put 0 0)) =
        some ⟨⟨s.queue.modify 0 fun q => q.put 0, Fifo.put s.queues 0 0⟩, want, .waiting 0⟩ := by
      show (s.step (.put 0 0)).map _ = _
      rw [hput]
      rfl
    rw [runEvents, hresume, Option.bind_some, runEvents, hother]
    rfl
  · intro hnil
    have hperm := (Fifo.put_perm hpos 0).length_eq
    rw [show (Fifo.put s.queues 0 0).flatten = [] from hnil] at hperm
    cases hperm

/-- **When a call of `getM` does what is due**, whatever the other threads do: if
it finds a value. -/
theorem always_due_iff (priorityNum : ℤ) (calls : List QueueCall) (s : QueueRun)
    (hwants : ∀ want, .getM want ∈ calls → 0 ≤ want)
    (hrun : runEvents QueueRun.step (QueueRun.new priorityNum) calls = some s)
    (want : ℤ) (hwant : 1 ≤ want) :
    (∀ es, Always BatchRun.step Due (enter s want) es) ↔ totalSize s.queue ≠ 0 := by
  have hs := QueueRun.sound_of_run hwants hrun
  constructor
  · intro halways hzero
    obtain ⟨es, b, hes, hne⟩ := exists_put hs hzero want
    exact ((never_returns hzero es).last hes).not_due hne ((halways es).last hes)
  · intro hne es
    obtain ⟨b, hresume, hanswers⟩ := answers_enter hs hwant hne
    -- either nothing has happened yet, or the call has returned
    refine Always.of_guarded (I := fun b => b = enter s want ∨ ∃ c v, b.state = .returned c v)
      (G := fun _ _ => True) ?_ ?_ (.inl rfl) (guarded_true _ es)
    · rintro b₁ e b₂ (rfl | ⟨c, v, hret⟩) - hstep
      · cases e with
        | other call => cases hstep
        | resume =>
          obtain ⟨c, -, -, hret, -⟩ := hanswers
          obtain rfl := Option.some.inj (hresume.symm.trans hstep)
          exact .inr ⟨c, _, hret⟩
      · exact .inr ⟨c, v, step_returned hret hstep⟩
    · rintro b₁ (rfl | ⟨c, v, hret⟩)
      · refine ⟨?_, fun _ _ => ⟨b, hresume, hanswers⟩⟩
        intro hnil
        rw [hs.holds.totalSize_eq, show s.queues.flatten = [] from hnil] at hne
        exact absurd rfl hne
      · exact ⟨fun _ hrunning => absurd hret (hrunning c v),
          fun _ hrunning => absurd hret (hrunning c v)⟩

/-- Three values with two priorities, of which two are wanted. -/
theorem always_due_iff_three :
    ∃ s, runEvents QueueRun.step (QueueRun.new 2) [.put 7 1, .put 8 0, .put 9 1] = some s ∧
      s.queues = [[8], [7, 9]] ∧ ∀ es, Always BatchRun.step Due (enter s 2) es := by
  have hwants : ∀ want, QueueCall.getM want ∈ [QueueCall.put 7 1, .put 8 0, .put 9 1] →
      0 ≤ want := by
    simp
  obtain ⟨s, hrun, hqueues⟩ : ∃ s, runEvents QueueRun.step (QueueRun.new 2)
      [.put 7 1, .put 8 0, .put 9 1] = some s ∧ s.queues = [[8], [7, 9]] := ⟨_, rfl, rfl⟩
  refine ⟨s, hrun, hqueues, (always_due_iff 2 _ s hwants hrun 2 (by decide)).mpr ?_⟩
  rw [(QueueRun.sound_of_run hwants hrun).holds.totalSize_eq, hqueues]
  decide

/-- The first call on an empty queue: it goes on waiting after a value has been
put. -/
theorem always_due_empty :
    (runEvents BatchRun.step (enter (QueueRun.new 1) 1) [.resume, .other (.put 7 0), .resume]).map
      (fun b => (b.state, totalSize b.queue)) = some (.waiting 0, 1) := by
  decide +kernel

end BatchRun

end Util

end Xkim
