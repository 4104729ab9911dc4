/-
MsgHandler/Pilot/TaskFlow.lean

The queue of one path under all interleavings of the watcher and the worker
(`UpdateTaskManager::put_update_task` and `get_update_task`,
`PooledClientImpl::svc`).

The two lists of the queue have a lock each, so a put is two steps: a node is
taken from the free ones, then it is linked into the list of tasks.  A get is
two steps in the same way.  The watcher holds the lock of the factory
throughout its put, the worker does not.  `svc_eq_run` says that the steps of a
worker that nobody disturbs are a round of `svc`.

`pending` is kept beside the program: the children have changed, and no
`REFRESH_ALL` has begun to read them since.  A put that finds no free node
drops its task.  So a change can be forgotten, when it is announced or when the
worker is done with the task that announced it (`always_kept_iff`).
-/
import MsgHandler.Pilot.UpdateTasks
import MsgHandler.Run

namespace Xkim

namespace Pilot

/-! ### The halves of a put and of a get -/

namespace UpdateTaskManager

/-- `update_wait_list_.try_get()`. -/
def tryGet (M : UpdateTaskManager) : Option UpdateTaskManager :=
  if 0 < M.waitList then some { M with waitList := M.waitList - 1 } else none

/-- `update_task_list_.put(*node)`. -/
def link (t : TimedTask) (M : UpdateTaskManager) : UpdateTaskManager :=
  { M with taskList := t :: M.taskList }

/-- `update_wait_list_.put(*node)`. -/
def giveBack (M : UpdateTaskManager) : UpdateTaskManager := { M with waitList := M.waitList + 1 }

theorem tryGet_of_free {M : UpdateTaskManager} (hfree : 0 < M.waitList) :
    M.tryGet = some { M with waitList := M.waitList - 1 } := if_pos hfree

theorem tryGet_of_full {M : UpdateTaskManager} (hfull : ¬ 0 < M.waitList) : M.tryGet = none :=
  if_neg hfull

theorem putTask_of_full {M : UpdateTaskManager} (hfull : ¬ 0 < M.waitList) (t : TimedTask) :
    (M.putTask t).2 = M := by
  rw [putTask, if_neg hfull]

end UpdateTaskManager

/-! ### What the worker does with a task -/

/-- What `svc` does with a task that it has taken. -/
inductive Deed
  | exit
  /-- `REFRESH_ALL` is processed. -/
  | read
  /-- A task is put into the queue. -/
  | put (t : TimedTask)
  /-- Nothing happens to the queue. -/
  | drop
  deriving DecidableEq, Repr

/-- `svc` and `process_update_task` at the time `now`, as far as the queue is
concerned. -/
def deed (path : List UInt8) (now : ℕ) (t : TimedTask) : Deed :=
  match t.task.taskType with
  | .exit => .exit
  | .refreshAll => .read
  | .timedRefreshAll => if now % 2 ^ 32 ≥ t.timed then .read else .put t
  | .nodeCreated | .childChanged =>
    if t.task.taskArg = [] ∨ t.task.taskArg ≠ path then .drop
    else .put (UpdateTaskManager.newTask now .refreshAll [])
  | .nodeValueChanged | .nodeDeleted | .sessionExpired => .drop

/-- The queue after a deed. -/
def Deed.queue (M : UpdateTaskManager) : Deed → UpdateTaskManager
  | .put t => (M.putTask t).2
  | .exit | .read | .drop => M

theorem readTask_refreshAll_puts (H : PilotHost) (zk : Zk) (s : PooledClientImpl)
    (arg : List UInt8) : (s.readTask H zk ⟨.refreshAll, arg⟩).2 = [] := by
  dsimp only [PooledClientImpl.readTask]
  rcases getAllReplicas H zk s.path with - | riv
  · rfl
  · dsimp only
    split_ifs <;> rfl

theorem readTask_nodeValueChanged_puts (H : PilotHost) (zk : Zk) (s : PooledClientImpl)
    (arg : List UInt8) : (s.readTask H zk ⟨.nodeValueChanged, arg⟩).2 = [] := by
  dsimp only [PooledClientImpl.readTask]
  split_ifs
  · rfl
  · split <;> rfl

/-- A round of `svc` is a deed. -/
theorem svc_eq_deed {H : PilotHost} {zk : Zk} {now : ℕ} {s : PooledClientImpl}
    {F : UpdateTaskManagerFactory} {free : ℕ} {t : TimedTask} {ts : List TimedTask}
    (hM : F.map s.path = some ⟨free, t :: ts⟩) :
    (s.svc H zk now F).map s.path = some ((deed s.path now t).queue ⟨free + 1, ts⟩) := by
  obtain ⟨⟨type, arg⟩, timed⟩ := t
  unfold PooledClientImpl.svc
  rw [UpdateTaskManagerFactory.getUpdateTaskManager_of_some hM]
  show (F.set s.path _).map s.path = _
  rw [UpdateTaskManagerFactory.set_map_self]
  refine congrArg some ?_
  cases type with
  | timedRefreshAll =>
    dsimp only [deed]
    split_ifs with hdue
    · rw [readTask_refreshAll_puts]
      rfl
    · rfl
  | refreshAll =>
    rw [readTask_refreshAll_puts]
    rfl
  | nodeValueChanged =>
    rw [readTask_nodeValueChanged_puts]
    rfl
  | nodeCreated | childChanged =>
    dsimp only [deed, PooledClientImpl.readTask]
    split_ifs <;> rfl
  | sessionExpired | nodeDeleted | exit => rfl

/-! ### One path -/

/-- Where the worker is. -/
inductive Worker
  /-- Before `get_from_head()`. -/
  | idle
  /-- With a task, and its node still in hand. -/
  | fetched (t : TimedTask)
  /-- `get_update_task` has returned the task. -/
  | holding (t : TimedTask)
  /-- A `REFRESH_ALL` has begun to read the replicas. -/
  | reading (t : TimedTask)
  /-- With a free node for a task that is put. -/
  | linking (t : TimedTask)
  /-- `svc` has returned. -/
  | ended
  deriving DecidableEq, Repr

/-- The task that the worker is about. -/
def Worker.tasks : Worker → List TimedTask
  | .idle | .ended => []
  | .fetched t | .holding t | .reading t | .linking t => [t]

/-- The queue of one path and those who use it. -/
structure TaskFlow where
  manager : UpdateTaskManager
  /-- The task of a watcher that has a free node for it. -/
  notifying : Option TimedTask
  worker : Worker
  /-- The children have changed since a `REFRESH_ALL` last began to read them. -/
  pending : Bool
  deriving DecidableEq, Repr

namespace TaskFlow

inductive Event
  /-- `notify` or `notify_all` comes to this queue, up to the free node. -/
  | notify (now : ℕ) (type : UpdateTaskType) (arg : List UInt8)
  /-- The task of the watcher is linked. -/
  | link
  /-- The worker makes its next step. -/
  | work (now : ℕ)
  deriving DecidableEq, Repr

/-- Before any event. -/
def start (M : UpdateTaskManager) : TaskFlow := ⟨M, none, .idle, false⟩

/-- The worker does what is to be done with its task. -/
def act (s : TaskFlow) (t : TimedTask) : Deed → TaskFlow
  | .exit => { s with worker := .ended }
  | .read =>
    { s with worker := .reading { t with task.taskType := .refreshAll }, pending := false }
  | .put t' =>
    match s.manager.tryGet with
    | some M => { s with manager := M, worker := .linking t' }
    | none => { s with worker := .idle }
  | .drop => { s with worker := .idle }

/-- The task says that the children of the path have changed. -/
def Announces (path : List UInt8) (task : UpdateTask) : Prop := task = ⟨.childChanged, path⟩

instance (path : List UInt8) (task : UpdateTask) : Decidable (Announces path task) :=
  inferInstanceAs (Decidable (task = _))

variable (path : List UInt8)

/-- The next step of the worker; `none` if it waits or has ended. -/
def work (s : TaskFlow) (now : ℕ) : Option TaskFlow :=
  match s.worker with
  | .idle =>
    match s.manager.taskList with
    | [] => none
    | t :: ts => some { s with manager.taskList := ts, worker := .fetched t }
  | .fetched t => some { s with manager := s.manager.giveBack, worker := .holding t }
  | .holding t => some (s.act t (deed path now t))
  | .reading _ => some { s with worker := .idle }
  | .linking t => some { s with manager := s.manager.link t, worker := .idle }
  | .ended => none

/-- The watcher asks for a free node; without one the task is dropped. -/
def reserve (s : TaskFlow) (t : TimedTask) : TaskFlow :=
  match s.manager.tryGet with
  | some M => { s with manager := M, notifying := some t }
  | none => s

def step (s : TaskFlow) : Event → Option TaskFlow
  | .notify now type arg =>
    -- the lock of the factory
    if s.notifying = none then
      some { s.reserve (UpdateTaskManager.newTask now type arg) with
        pending := s.pending || decide (Announces path ⟨type, arg⟩) }
    else none
  | .link =>
    match s.notifying with
    | some t => some { s with manager := s.manager.link t, notifying := none }
    | none => none
  | .work now => s.work path now

/-! ### Without interruption -/

/-- A notification that nobody disturbs puts its task. -/
theorem notify_eq_run {path : List UInt8} {s : TaskFlow} (hnone : s.notifying = none) (now : ℕ)
    (type : UpdateTaskType) (arg : List UInt8) :
    ∃ es s', runEvents (step path) s (.notify now type arg :: es) = some s' ∧
      s'.manager = (s.manager.put now type arg).2 ∧ s'.notifying = none := by
  have hstep : step path s (.notify now type arg) =
      some { s.reserve (UpdateTaskManager.newTask now type arg) with
        pending := s.pending || decide (Announces path ⟨type, arg⟩) } := if_pos hnone
  by_cases hfree : 0 < s.manager.waitList
  · refine ⟨[.link], ⟨(s.manager.put now type arg).2, none, s.worker,
      s.pending || decide (Announces path ⟨type, arg⟩)⟩, ?_, rfl, rfl⟩
    rw [UpdateTaskManager.put, UpdateTaskManager.putTask_of_free hfree]
    simp only [runEvents, hstep, reserve, UpdateTaskManager.tryGet_of_free hfree, Option.bind_some]
    rfl
  · refine ⟨[], ⟨(s.manager.put now type arg).2, none, s.worker,
      s.pending || decide (Announces path ⟨type, arg⟩)⟩, ?_, rfl, rfl⟩
    rw [UpdateTaskManager.put, UpdateTaskManager.putTask_of_full hfree]
    simp only [runEvents, hstep, reserve, UpdateTaskManager.tryGet_of_full hfree, Option.bind_some,
      hnone]

/-- The worker does a deed that nobody disturbs. -/
theorem deed_eq_run {path : List UInt8} {s : TaskFlow} {t : TimedTask}
    (hw : s.worker = .holding t) (now : ℕ) :
    ∃ n s', runEvents (step path) s (List.replicate n (.work now)) = some s' ∧
      s'.manager = (deed path now t).queue s.manager ∧
      (s'.worker = .idle ∨ s'.worker = .ended) := by
  have hstep : step path s (.work now) = some (s.act t (deed path now t)) := by
    simp only [step, work, hw]
  cases hd : deed path now t with
  | exit =>
    rw [hd] at hstep
    exact ⟨1, { s with worker := .ended }, congrArg (Option.bind · some) hstep, rfl, Or.inr rfl⟩
  | drop =>
    rw [hd] at hstep
    exact ⟨1, { s with worker := .idle }, congrArg (Option.bind · some) hstep, rfl, Or.inl rfl⟩
  | read =>
    rw [hd] at hstep
    refine ⟨2, { s with worker := .idle, pending := false }, ?_, rfl, Or.inl rfl⟩
    simp only [List.replicate_succ, runEvents, hstep, Option.bind_some]
    rfl
  | put t' =>
    rw [hd] at hstep
    by_cases hfree : 0 < s.manager.waitList
    · rw [act, UpdateTaskManager.tryGet_of_free hfree] at hstep
      refine ⟨2, { s with manager := (s.manager.putTask t').2, worker := .idle }, ?_, rfl,
        Or.inl rfl⟩
      rw [UpdateTaskManager.putTask_of_free hfree]
      simp only [List.replicate_succ, runEvents, hstep, Option.bind_some]
      rfl
    · rw [act, UpdateTaskManager.tryGet_of_full hfree] at hstep
      refine ⟨1, { s with worker := .idle }, congrArg (Option.bind · some) hstep, ?_, Or.inl rfl⟩
      exact (UpdateTaskManager.putTask_of_full hfree t').symm

/-- **The worker's steps are a round of `svc`**, if nobody disturbs them. -/
theorem svc_eq_run {H : PilotHost} {zk : Zk} {now : ℕ} {c : PooledClientImpl}
    {F : UpdateTaskManagerFactory} {s : TaskFlow} (hM : F.map c.path = some s.manager)
    (hw : s.worker = .idle) (hne : s.manager.taskList ≠ []) :
    ∃ n s', runEvents (step c.path) s (List.replicate n (.work now)) = some s' ∧
      (c.svc H zk now F).map c.path = some s'.manager ∧
      (s'.worker = .idle ∨ s'.worker = .ended) := by
  obtain ⟨t, ts, hts⟩ := List.exists_cons_of_ne_nil hne
  obtain ⟨n, s', hrun, hqueue, hend⟩ := @deed_eq_run c.path
    { s with manager := ⟨s.manager.waitList + 1, ts⟩, worker := .holding t } t rfl now
  refine ⟨n + 2, s', ?_, ?_, hend⟩
  · -- the task is fetched and its node given back, then the deed is done
    rw [List.replicate_succ, List.replicate_succ]
    simp only [runEvents, step, work, hw, hts, Option.bind_some]
    exact hrun
  · rw [hqueue]
    refine svc_eq_deed (hM.trans ?_)
    rw [← hts]

/-! ### A change is not forgotten -/

/-- A task that leads to a refresh. -/
def Covers (t : TimedTask) : Prop := t.task.taskType = .refreshAll ∨ Announces path t.task

instance (t : TimedTask) : Decidable (Covers path t) :=
  inferInstanceAs (Decidable (_ ∨ _))

/-- The tasks in the queue, or on the way into it. -/
def queued (s : TaskFlow) : List TimedTask := s.notifying.toList ++ s.manager.taskList

/-- A task that leads to a refresh is queued or being processed. -/
def Covered (s : TaskFlow) : Prop := ∃ t ∈ s.queued ++ s.worker.tasks, Covers path t

instance (s : TaskFlow) : Decidable (Covered path s) :=
  inferInstanceAs (Decidable (∃ t ∈ s.queued ++ s.worker.tasks, Covers path t))

/-- **No change is lost**. -/
def Kept (s : TaskFlow) : Prop := s.pending = true → Covered path s

instance (s : TaskFlow) : Decidable (Kept path s) :=
  inferInstanceAs (Decidable (s.pending = true → Covered path s))

/-- The worker's next step leaves it with a task that leads to a refresh, if it had one,
or begins to read. -/
def HandsOn (s : TaskFlow) (now : ℕ) : Prop :=
  match s.worker with
  | .holding t =>
    match deed path now t with
    | .read => True
    | .put t' => Covers path t' ∧ 0 < s.manager.waitList
    | .exit | .drop => False
  | .reading _ => False
  | .idle | .fetched _ | .linking _ | .ended => True

/-- **When an event forgets no change**.  A change that is announced finds a free
node, or a task that leads to a refresh is there already.  While a change is
pending, the worker hands its task on, or such a task is queued. -/
def Safe (s : TaskFlow) : Event → Prop
  | .notify _ type arg => Announces path ⟨type, arg⟩ → 0 < s.manager.waitList ∨ Covered path s
  | .link => True
  | .work now => s.pending = true → HandsOn path s now ∨ ∃ t ∈ s.queued, Covers path t

variable {path} {s s' : TaskFlow} {now : ℕ}

theorem covered_iff : Covered path s ↔
    (∃ t ∈ s.queued, Covers path t) ∨ ∃ t ∈ s.worker.tasks, Covers path t := by
  simp only [Covered, List.mem_append, or_and_right, exists_or]

/-- What the worker has done with its task leaves the change covered exactly if the
task was handed on, or another one is queued. -/
theorem kept_act_iff {t : TimedTask} (hpending : s.pending = true) (hw : s.worker = .holding t) :
    Kept path (s.act t (deed path now t)) ↔
      HandsOn path s now ∨ ∃ t ∈ s.queued, Covers path t := by
  unfold HandsOn
  rw [hw]
  dsimp only
  cases deed path now t with
  | exit | drop => simp [Kept, act, covered_iff, queued, Worker.tasks, hpending]
  | read => simp [Kept, act]
  | put t' =>
    by_cases hfree : 0 < s.manager.waitList
    · simp [Kept, act, UpdateTaskManager.tryGet_of_free hfree, covered_iff, queued, Worker.tasks,
        hpending, hfree, or_comm]
    · simp [Kept, act, UpdateTaskManager.tryGet_of_full hfree, covered_iff, queued, Worker.tasks,
        hpending, hfree]

/-- A step that only moves tasks, to any order and any place, forgets no change. -/
theorem Kept.of_perm (h : Kept path s) (hpending : s'.pending = s.pending)
    (hperm : (s.queued ++ s.worker.tasks).Perm (s'.queued ++ s'.worker.tasks)) :
    Kept path s' := by
  intro hp
  rw [hpending] at hp
  obtain ⟨t, ht, hcovers⟩ := h hp
  exact ⟨t, hperm.mem_iff.mp ht, hcovers⟩

theorem act_pending {t : TimedTask} {d : Deed} (h : (s.act t d).pending = true) :
    s.pending = true := by
  cases d with
  | exit | drop => exact h
  | read => cases h
  | put t' =>
    unfold act at h
    dsimp only at h
    split at h <;> exact h

/-- The steps of the worker. -/
theorem kept_work_iff (hs : Kept path s) (h : s.work path now = some s') :
    Kept path s' ↔
      (s.pending = true → HandsOn path s now ∨ ∃ t ∈ s.queued, Covers path t) := by
  unfold work at h
  cases hw : s.worker with
  | idle =>
    rw [hw] at h
    dsimp only at h
    split at h
    · cases h
    · rename_i t ts hts
      obtain rfl := Option.some.inj h
      simp only [HandsOn, hw, true_or, implies_true, iff_true]
      refine hs.of_perm rfl ?_
      simp only [queued, hts, hw, Worker.tasks, List.append_nil, List.append_assoc]
      exact (List.perm_append_singleton t ts).symm.append_left _
  | fetched t =>
    rw [hw] at h
    obtain rfl := Option.some.inj h
    simp only [HandsOn, hw, true_or, implies_true, iff_true]
    refine hs.of_perm rfl ?_
    rw [hw]
    exact List.Perm.refl _
  | linking t =>
    rw [hw] at h
    obtain rfl := Option.some.inj h
    simp only [HandsOn, hw, true_or, implies_true, iff_true]
    refine hs.of_perm rfl ?_
    simp only [queued, UpdateTaskManager.link, hw, Worker.tasks, List.append_nil,
      List.append_assoc]
    exact (List.perm_append_singleton t s.manager.taskList).append_left _
  | holding t =>
    rw [hw] at h
    obtain rfl := Option.some.inj h
    by_cases hpending : s.pending = true
    · rw [kept_act_iff hpending hw, imp_iff_right hpending]
    · exact ⟨fun _ hp => absurd hp hpending, fun _ hp => absurd (act_pending hp) hpending⟩
  | reading t =>
    rw [hw] at h
    obtain rfl := Option.some.inj h
    simp [Kept, covered_iff, queued, HandsOn, hw, Worker.tasks]
  | ended =>
    rw [hw] at h
    cases h

/-- A notification covers its own change if there is a free node. -/
theorem covered_reserve_iff {t : TimedTask} (hnone : s.notifying = none) {b : Bool} :
    Covered path { s.reserve t with pending := b } ↔
      Covered path s ∨ (0 < s.manager.waitList ∧ Covers path t) := by
  by_cases hfree : 0 < s.manager.waitList
  · simp only [covered_iff, queued, reserve, UpdateTaskManager.tryGet_of_free hfree, hnone, hfree,
      Option.toList_some, Option.toList_none, List.nil_append, List.singleton_append,
      List.exists_mem_cons_iff, true_and]
    exact or_assoc.trans or_comm
  · simp [covered_iff, queued, reserve, UpdateTaskManager.tryGet_of_full hfree, hfree]

/-- **One event** keeps the change exactly if it is safe. -/
theorem kept_step_iff {e : Event} (hs : Kept path s) (h : step path s e = some s') :
    Kept path s' ↔ Safe path s e := by
  cases e with
  | notify now type arg =>
    dsimp only [step] at h
    split_ifs at h with hnone
    obtain rfl := Option.some.inj h
    rw [Kept, covered_reserve_iff hnone]
    by_cases hann : Announces path ⟨type, arg⟩
    · have hcovers : Covers path (UpdateTaskManager.newTask now type arg) := Or.inr hann
      simp [Safe, hann, hcovers, or_comm]
    · -- another task: what was covered stays so
      simp only [Safe, hann, decide_false, Bool.or_false, false_implies, iff_true]
      exact fun hpending => Or.inl (hs hpending)
  | link =>
    dsimp only [step] at h
    split at h
    · rename_i t ht
      obtain rfl := Option.some.inj h
      refine iff_of_true (hs.of_perm rfl ?_) trivial
      rw [queued, ht]
      exact List.Perm.refl _
    · cases h
  | work now => exact kept_work_iff hs h

/-- **Which runs lose no change**: from any queue, a run keeps every change of the
children exactly if each of its events is safe where it happens. -/
theorem always_kept_iff (path : List UInt8) (M : UpdateTaskManager) (es : List Event) :
    Always (step path) (Kept path) (start M) es ↔
      Guarded (step path) (Safe path) (start M) es :=
  always_iff_guarded (fun _ _ _ hs _ hg h => (kept_step_iff hs h).mpr hg) (fun _ hs => hs)
    (fun _ _ _ hs _ h hs' => (kept_step_iff hs h).mp hs') (fun h => nomatch h)
    (guarded_true (start M) es)

/-- The worker is done with its first `REFRESH_ALL`.  Then a child is deleted five times,
before the worker comes to it, and the children change. -/
def burst : List Event :=
  List.replicate 4 (.work 0) ++
    (List.replicate 5
      [.notify 0 .nodeDeleted (servicePath ++ [SLASH, 98]), .link]).flatten ++
    [.notify 0 .childChanged servicePath]

/-- After the burst the worker empties its queue, and waits with the change pending. -/
theorem burst_forgets :
    ¬ Always (step servicePath) (Kept servicePath)
        (start (UpdateTaskManager.opened.put 0 .refreshAll []).2) burst ∧
      runEvents (step servicePath) (start (UpdateTaskManager.opened.put 0 .refreshAll []).2)
        (burst ++ List.replicate 15 (.work 0)) =
          some ⟨UpdateTaskManager.opened, none, .idle, true⟩ := by
  decide +kernel

end TaskFlow

end Pilot

end Xkim
