/-
MsgHandler/Pilot/UpdateTasks.lean

How an event of ZooKeeper comes to the pools of a service
(`thrift/pilot/watcher_action.cc`, `thrift/pilot/update_task_manager.{h,cc}`,
`PooledClientImpl::svc`).

The watcher turns an event into a task with an argument, and puts it into the
queue of a key, if there is one; the key of a client's queue is the path that
it watches.  The client's worker takes tasks from this queue.  Of the tasks for
a created node and for changed children it looks at the argument: only if this
is its own path, a `REFRESH_ALL` is put into the queue.

For changed children the key and the argument are the path of the event.  For a
created node the key is the path above it.  So the event of the service's own
node goes to another queue, and the event of a child comes to the right queue
with an argument that is not the path: neither leads to a refresh
(`reaction_refreshes_iff`).

The queue has `UPDATE_TASK_POOL_SIZE` nodes; what is put in last is taken out
first.
-/
import MsgHandler.Pilot.Registration

namespace Xkim

namespace Pilot

/-! ### The queue of a key -/

/-- `UPDATE_TASK_POOL_SIZE`. -/
def UPDATE_TASK_POOL_SIZE : ℕ := 5

/-- An `UpdateTask` with `task_timed_`, a time in milliseconds. -/
structure TimedTask where
  task : UpdateTask
  timed : ℕ
  deriving DecidableEq, Repr

/-- `UpdateTaskManager`: the number of free nodes in `update_wait_list_`, and the
tasks in `update_task_list_`. -/
structure UpdateTaskManager where
  waitList : ℕ
  taskList : List TimedTask
  deriving DecidableEq, Repr

namespace UpdateTaskManager

/-- `open()`. -/
def opened : UpdateTaskManager := ⟨UPDATE_TASK_POOL_SIZE, []⟩

/-- `put_update_task(UpdateTask*)`. -/
def putTask (t : TimedTask) (M : UpdateTaskManager) : Bool × UpdateTaskManager :=
  if 0 < M.waitList then (true, ⟨M.waitList - 1, t :: M.taskList⟩) else (false, M)

/-- The task that `put_update_task(type, arg)` makes at the time `now`, in
milliseconds. -/
def newTask (now : ℕ) (type : UpdateTaskType) (arg : List UInt8) : TimedTask :=
  ⟨⟨type, arg⟩, if type = .timedRefreshAll then (now + 3000) % 2 ^ 32 else 0⟩

/-- `put_update_task(type, arg)`. -/
def put (now : ℕ) (type : UpdateTaskType) (arg : List UInt8) (M : UpdateTaskManager) :
    Bool × UpdateTaskManager :=
  M.putTask (newTask now type arg)

/-- `get_update_task()`; `none` is a thread that waits. -/
def get (M : UpdateTaskManager) : Option (TimedTask × UpdateTaskManager) :=
  match M.taskList with
  | [] => none
  | t :: ts => some (t, ⟨M.waitList + 1, ts⟩)

/-- A task is put if there is a free node. -/
theorem putTask_of_free {M : UpdateTaskManager} (hfree : 0 < M.waitList) (t : TimedTask) :
    (M.putTask t).2 = ⟨M.waitList - 1, t :: M.taskList⟩ := by
  rw [putTask, if_pos hfree]

end UpdateTaskManager

open UpdateTaskManager

/-- `UpdateTaskManagerFactory`. -/
structure UpdateTaskManagerFactory where
  map : List UInt8 → Option UpdateTaskManager

namespace UpdateTaskManagerFactory

/-- The queue of `key` has changed. -/
def set (F : UpdateTaskManagerFactory) (key : List UInt8) (M : UpdateTaskManager) :
    UpdateTaskManagerFactory :=
  ⟨Function.update F.map key (some M)⟩

/-- `get_update_task_manager(key)`. -/
def getUpdateTaskManager (key : List UInt8) (F : UpdateTaskManagerFactory) :
    UpdateTaskManager × UpdateTaskManagerFactory :=
  match F.map key with
  | some M => (M, F)
  | none => (opened, F.set key opened)

/-- `notify(key, type, arg)`. -/
def notify (now : ℕ) (key : List UInt8) (type : UpdateTaskType) (arg : List UInt8)
    (F : UpdateTaskManagerFactory) : UpdateTaskManagerFactory :=
  match F.map key with
  | none => F
  | some M => F.set key (M.put now type arg).2

/-- `notify_all(type, arg)`. -/
def notifyAll (now : ℕ) (type : UpdateTaskType) (arg : List UInt8)
    (F : UpdateTaskManagerFactory) : UpdateTaskManagerFactory :=
  ⟨fun key => (F.map key).map fun M => (M.put now type arg).2⟩

variable {F : UpdateTaskManagerFactory} {key P : List UInt8}

theorem getUpdateTaskManager_of_some {M : UpdateTaskManager} (hM : F.map key = some M) :
    F.getUpdateTaskManager key = (M, F) := by
  rw [getUpdateTaskManager, hM]

@[simp] theorem set_map_self (M : UpdateTaskManager) : (F.set key M).map key = some M :=
  Function.update_self ..

theorem set_map_of_ne (h : P ≠ key) (M : UpdateTaskManager) : (F.set key M).map P = F.map P :=
  Function.update_of_ne h ..

theorem getUpdateTaskManager_map_of_ne (h : P ≠ key) :
    (F.getUpdateTaskManager key).2.map P = F.map P := by
  unfold getUpdateTaskManager
  split
  · rfl
  · exact set_map_of_ne h _

/-- The other queues stay as they are. -/
theorem notify_map_of_ne (h : P ≠ key) (now : ℕ) (type : UpdateTaskType) (arg : List UInt8) :
    (F.notify now key type arg).map P = F.map P := by
  unfold notify
  split
  · rfl
  · exact set_map_of_ne h _

theorem notify_map_self {M : UpdateTaskManager} (hM : F.map key = some M)
    (hfree : 0 < M.waitList) (now : ℕ) (type : UpdateTaskType) (arg : List UInt8) :
    (F.notify now key type arg).map key =
      some ⟨M.waitList - 1, newTask now type arg :: M.taskList⟩ := by
  unfold notify
  rw [hM]
  dsimp only
  rw [set_map_self, put, putTask_of_free hfree]

end UpdateTaskManagerFactory

/-! ### The watcher -/

/-- The events of ZooKeeper that `ServiceWatcherAction` handles. -/
inductive ServiceEvent
  | connected
  | nodeCreated (path : List UInt8)
  | nodeValueChanged (path : List UInt8)
  | nodeDeleted (path : List UInt8)
  | childChanged (path : List UInt8)
  deriving DecidableEq, Repr

/-- `spath.substr(0, spath.find_last_of("/"))`. -/
def keyPath (spath : List UInt8) : Option (List UInt8) :=
  if SLASH ∈ spath then some (spath.reverse.dropWhile (· ≠ SLASH)).tail.reverse else none

/-- The path above a node. -/
theorem keyPath_child {x : List UInt8} (hx : SLASH ∉ x) (P : List UInt8) :
    keyPath (P ++ SLASH :: x) = some P := by
  have hdrop : ((P ++ SLASH :: x).reverse.dropWhile (· ≠ SLASH)) = SLASH :: P.reverse := by
    rw [List.reverse_append, List.reverse_cons, List.append_assoc,
      List.dropWhile_append_of_pos]
    · rfl
    · intro c hc
      rw [List.mem_reverse] at hc
      exact decide_eq_true fun heq => hx (heq ▸ hc)
  rw [keyPath, if_pos (by simp), hdrop, List.tail_cons, List.reverse_reverse]

/-- is shorter than the node's. -/
theorem keyPath_length {spath key : List UInt8} (h : keyPath spath = some key) :
    key.length < spath.length := by
  unfold keyPath at h
  split_ifs at h with hmem
  obtain rfl := Option.some.inj h
  have hle := (List.dropWhile_suffix (l := spath.reverse) (· ≠ SLASH)).length_le
  have hpos := List.length_pos_of_mem hmem
  rw [List.length_reverse] at hle
  rw [List.length_reverse, List.length_tail]
  omega

namespace ServiceWatcherAction

/-- `on_node_created`, `on_node_value_changed` and `on_node_deleted`: the key is the
path above the node. -/
def onNode (type : UpdateTaskType) (path : List UInt8) :
    Option (List UInt8 × UpdateTaskType × List UInt8) :=
  match keyPath path with
  | none => none
  | some key => if key.length > DEFAULT_NAMESPACE.length then some (key, type, path) else none

/-- The key is not the node itself. -/
theorem onNode_key_ne {type type' : UpdateTaskType} {path key arg : List UInt8}
    (h : onNode type path = some (key, type', arg)) : path ≠ key := by
  unfold onNode at h
  split at h
  · cases h
  · rename_i key' hkey
    split_ifs at h
    obtain rfl : key' = key := congrArg (·.1) (Option.some.inj h)
    rintro rfl
    exact lt_irrefl _ (keyPath_length hkey)

/-- What an event says to `notify`: a key, a type and an argument. -/
def notification : ServiceEvent → Option (List UInt8 × UpdateTaskType × List UInt8)
  | .connected => none
  | .nodeCreated path => onNode .nodeCreated path
  | .nodeValueChanged path => onNode .nodeValueChanged path
  | .nodeDeleted path => onNode .nodeDeleted path
  | .childChanged path => some (path, .childChanged, path)

/-- An event is delivered. -/
def onEvent (now : ℕ) (F : UpdateTaskManagerFactory) : ServiceEvent → UpdateTaskManagerFactory
  | .connected => F.notifyAll now .refreshAll []
  | e =>
    match notification e with
    | none => F
    | some (key, type, arg) => F.notify now key type arg

end ServiceWatcherAction

open ServiceWatcherAction

/-! ### The worker -/

namespace PooledClientImpl

/-- Tasks that `process_update_task` puts, one after the other. -/
def putAll (now : ℕ) (tasks : List UpdateTask) (M : UpdateTaskManager) : UpdateTaskManager :=
  tasks.foldl (fun M t => (M.put now t.taskType t.taskArg).2) M

/-- One round of `svc`, as far as the queue is concerned; the client's pools are
changed by `processUpdateTask`. -/
def svc (H : PilotHost) (zk : Zk) (now : ℕ) (s : PooledClientImpl)
    (F : UpdateTaskManagerFactory) : UpdateTaskManagerFactory :=
  let r := F.getUpdateTaskManager s.path
  match r.1.get with
  -- the thread waits for a task
  | none => r.2
  | some (t, M) =>
    r.2.set s.path
      (match t.task.taskType with
      | .exit => M
      | .timedRefreshAll =>
        if now % 2 ^ 32 ≥ t.timed then
          putAll now (s.readTask H zk ⟨.refreshAll, t.task.taskArg⟩).2 M
        else (M.putTask t).2
      | _ => putAll now (s.readTask H zk t.task).2 M)

section Svc

variable {H : PilotHost} {zk : Zk} {now : ℕ} {s : PooledClientImpl}
  {F : UpdateTaskManagerFactory}

/-- The other queues stay as they are. -/
theorem svc_map_of_ne {P : List UInt8} (h : P ≠ s.path) :
    (s.svc H zk now F).map P = F.map P := by
  have hget : (F.getUpdateTaskManager s.path).2.map P = F.map P :=
    UpdateTaskManagerFactory.getUpdateTaskManager_map_of_ne h
  unfold svc
  dsimp only
  split
  · exact hget
  · rw [UpdateTaskManagerFactory.set_map_of_ne h, hget]

/-- A task that is neither `EXIT` nor timed is processed. -/
theorem svc_map_self {free : ℕ} {t : TimedTask} {ts : List TimedTask}
    (hM : F.map s.path = some ⟨free, t :: ts⟩) (hexit : t.task.taskType ≠ .exit)
    (htimed : t.task.taskType ≠ .timedRefreshAll) :
    (s.svc H zk now F).map s.path =
      some (putAll now (s.readTask H zk t.task).2 ⟨free + 1, ts⟩) := by
  unfold svc
  rw [UpdateTaskManagerFactory.getUpdateTaskManager_of_some hM]
  show (F.set s.path _).map s.path = _
  rw [UpdateTaskManagerFactory.set_map_self]
  split
  · exact absurd ‹_› hexit
  · exact absurd ‹_› htimed
  · rfl

end Svc

end PooledClientImpl

/-! ### From the event to the refresh -/

/-- The number of `REFRESH_ALL` tasks in the queue of a path. -/
def refreshes (F : UpdateTaskManagerFactory) (P : List UInt8) : ℕ :=
  match F.map P with
  | none => 0
  | some M => M.taskList.countP (·.task.taskType = .refreshAll)

/-- The clients of the process, each under the path that it watches. -/
structure PooledClients where
  client : List UInt8 → Option PooledClientImpl
  path_eq : ∀ key s, client key = some s → s.path = key

/-- An event is delivered, and the worker whose queue was notified takes its turn. -/
def reaction (H : PilotHost) (zk : Zk) (now later : ℕ) (W : PooledClients)
    (F : UpdateTaskManagerFactory) (e : ServiceEvent) : UpdateTaskManagerFactory :=
  match notification e with
  | none => onEvent now F e
  | some (key, _, _) =>
    match W.client key with
    | none => onEvent now F e
    | some s => s.svc H zk later (onEvent now F e)

/-- The events that announce a change in the replicas of the service at `P`. -/
inductive TopologyEvent (P : List UInt8) : ServiceEvent → Prop
  | created : TopologyEvent P (.nodeCreated P)
  | childCreated {x : List UInt8} (hx : SLASH ∉ x) :
      TopologyEvent P (.nodeCreated (P ++ SLASH :: x))
  | childChanged : TopologyEvent P (.childChanged P)

section Reaction

variable {H : PilotHost} {zk : Zk} {now later : ℕ} {W : PooledClients}
  {F : UpdateTaskManagerFactory} {P : List UInt8} {M : UpdateTaskManager} {s : PooledClientImpl}

theorem refreshes_congr {F' : UpdateTaskManagerFactory} (h : F'.map P = F.map P) :
    refreshes F' P = refreshes F P := by
  rw [refreshes, refreshes, h]

/-- A notified task is the first that the worker takes. -/
theorem svc_notify {type : UpdateTaskType} {arg : List UInt8} (hpath : s.path = P)
    (hM : F.map P = some M) (hfree : 0 < M.waitList) (hexit : type ≠ .exit)
    (htimed : type ≠ .timedRefreshAll) :
    (s.svc H zk later (F.notify now P type arg)).map P =
      some (PooledClientImpl.putAll later (s.readTask H zk ⟨type, arg⟩).2 M) := by
  subst hpath
  have hqueue := UpdateTaskManagerFactory.notify_map_self hM hfree now type arg
  rw [PooledClientImpl.svc_map_self hqueue hexit htimed, Nat.sub_add_cancel hfree]
  rfl

/-- What is above a node is another key: the queue of the node stays as it is. -/
theorem reaction_created (H : PilotHost) (zk : Zk) (now later : ℕ) (W : PooledClients)
    (F : UpdateTaskManagerFactory) (P : List UInt8) :
    (reaction H zk now later W F (.nodeCreated P)).map P = F.map P := by
  cases hn : notification (.nodeCreated P) with
  | none => simp only [reaction, onEvent, hn]
  | some n =>
    obtain ⟨key, type, arg⟩ := n
    have hne : P ≠ key := onNode_key_ne hn
    have hevent : (onEvent now F (.nodeCreated P)).map P = F.map P := by
      simp only [onEvent, hn]
      exact UpdateTaskManagerFactory.notify_map_of_ne hne now type arg
    simp only [reaction, hn]
    split
    · exact hevent
    · rename_i s hs
      rw [← W.path_eq key s hs] at hne
      rw [PooledClientImpl.svc_map_of_ne hne, hevent]

/-- The worker drops the task for a created child. -/
theorem reaction_childCreated {x : List UInt8} (hx : SLASH ∉ x)
    (hP : DEFAULT_NAMESPACE.length < P.length) (hs : W.client P = some s)
    (hM : F.map P = some M) (hfree : 0 < M.waitList) :
    (reaction H zk now later W F (.nodeCreated (P ++ SLASH :: x))).map P = some M := by
  have hn : notification (.nodeCreated (P ++ SLASH :: x)) =
      some (P, .nodeCreated, P ++ SLASH :: x) := by
    simp only [notification, onNode, keyPath_child hx]
    exact if_pos hP
  have hpath := W.path_eq P s hs
  have hread : (s.readTask H zk ⟨.nodeCreated, P ++ SLASH :: x⟩).2 = [] := by
    have harg : P ++ SLASH :: x ≠ s.path := by
      rw [hpath]
      simp
    simp only [PooledClientImpl.readTask, if_pos (Or.inr harg)]
  simp only [reaction, hn, hs, onEvent]
  rw [svc_notify hpath hM hfree (by decide) (by decide), hread]
  rfl

/-- The worker puts `REFRESH_ALL` in the place of a task for changed children. -/
theorem reaction_childChanged (hP : P ≠ []) (hs : W.client P = some s) (hM : F.map P = some M)
    (hfree : 0 < M.waitList) :
    (reaction H zk now later W F (.childChanged P)).map P =
      some ⟨M.waitList - 1, newTask later .refreshAll [] :: M.taskList⟩ := by
  have hpath := W.path_eq P s hs
  have hread : (s.readTask H zk ⟨.childChanged, P⟩).2 = [⟨.refreshAll, []⟩] := by
    have harg : ¬ (P = [] ∨ P ≠ s.path) := by
      rw [not_or, not_not]
      exact ⟨hP, hpath.symm⟩
    simp only [PooledClientImpl.readTask, if_neg harg]
  simp only [reaction, notification, hs, onEvent]
  rw [svc_notify hpath hM hfree (by decide) (by decide), hread]
  exact congrArg some (putTask_of_free hfree _)

/-- **Which events reach the pool**: of the events that announce a change in the
replicas of a service, exactly the change of the children brings a `REFRESH_ALL`
into the queue of the service. -/
theorem reaction_refreshes_iff (hP : DEFAULT_NAMESPACE.length < P.length)
    (hs : W.client P = some s) (hM : F.map P = some M) (hfree : 0 < M.waitList)
    {e : ServiceEvent} (he : TopologyEvent P e) :
    refreshes (reaction H zk now later W F e) P = refreshes F P + 1 ↔ e = .childChanged P := by
  cases he with
  | created =>
    rw [refreshes_congr (reaction_created H zk now later W F P)]
    simp
  | childCreated hx =>
    rw [refreshes_congr ((reaction_childCreated hx hP hs hM hfree).trans hM.symm)]
    simp
  | childChanged =>
    have hne : P ≠ [] := List.ne_nil_of_length_pos (Nat.zero_lt_of_lt hP)
    refine ⟨fun _ => rfl, fun _ => ?_⟩
    rw [refreshes, refreshes, reaction_childChanged hne hs hM hfree, hM]
    exact List.countP_cons_of_pos (decide_eq_true rfl)

end Reaction

/-- A process with one client. -/
def soleClient (s : PooledClientImpl) : PooledClients where
  client key := if key = s.path then some s else none
  path_eq key s' h := by
    split_ifs at h with hkey
    rw [← Option.some.inj h, hkey]

theorem soleClient_client (s : PooledClientImpl) : (soleClient s).client s.path = some s :=
  if_pos rfl

/-- The queues after the constructor of a client for `P`. -/
def soleQueue (P : List UInt8) : UpdateTaskManagerFactory :=
  (UpdateTaskManagerFactory.getUpdateTaskManager P ⟨fun _ => none⟩).2

/-- The path `/jdns/a`. -/
def servicePath : List UInt8 := DEFAULT_NAMESPACE ++ [SLASH, 97]

/-- The children of `/jdns/a` have changed. -/
theorem reaction_refreshes_children :
    refreshes (reaction smallHost (listing []) 0 0 (soleClient (.new servicePath 1))
      (soleQueue servicePath) (.childChanged servicePath)) servicePath = 1 :=
  (reaction_refreshes_iff (by decide) (soleClient_client (.new servicePath 1))
    (show (soleQueue servicePath).map servicePath = some opened from
      UpdateTaskManagerFactory.set_map_self _) (by decide) .childChanged).mpr rfl

/-- Neither the creation of `/jdns/a` nor that of `/jdns/a/b` brings a `REFRESH_ALL` into
the queue of the client for `/jdns/a`, where all nodes are free. -/
theorem created_not_refreshed :
    (soleQueue servicePath).map servicePath = some opened ∧
      refreshes (reaction smallHost (listing []) 0 0 (soleClient (.new servicePath 1))
        (soleQueue servicePath) (.nodeCreated servicePath)) servicePath = 0 ∧
      refreshes (reaction smallHost (listing []) 0 0 (soleClient (.new servicePath 1))
        (soleQueue servicePath) (.nodeCreated (servicePath ++ [SLASH, 98]))) servicePath = 0 := by
  decide +kernel

end Pilot

end Xkim
