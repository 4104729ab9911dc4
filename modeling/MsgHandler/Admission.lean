/-
MsgHandler/Admission.lean

How many sockets the cluster of IO threads lets in
(`framework/io/io_app_cluster.cpp`).

The accept thread calls `dispatchConnection`, which reads the `_conn_count` of
one IO thread after the other, and admits the socket if the sum is below
`_socket_max`.  An admitted socket waits in a queue until its IO thread runs
`newConnection`, and only then is it counted.  The threads take their steps in
any order: here the accept thread reads one counter, or decides, and an IO
thread takes its queue, opens one socket of it, or handles an event.

A socket that waits is in no counter, so the next one is measured against too
small a sum.  As long as no socket waits when `dispatchConnection` is called,
the cap holds (`always_capped`).
-/
import MsgHandler.Accounting

namespace Xkim

/-! ### Sums over the threads -/

section Sums

variable {α : Type*} (f : α → ℕ)

/-- A sum in which one summand is replaced. -/
theorem sum_map_set {l : List α} {i : ℕ} {a : α} (b : α) (h : l[i]? = some a) :
    ((l.set i b).map f).sum + f a = (l.map f).sum + f b := by
  induction l generalizing i with
  | nil => cases h
  | cons x l ih =>
    cases i with
    | zero =>
      obtain rfl := Option.some.inj h
      simp only [List.set_cons_zero, List.map_cons, List.sum_cons]
      omega
    | succ i =>
      have hrest := ih (i := i) h
      simp only [List.set_cons_succ, List.map_cons, List.sum_cons]
      omega

/-- A smaller summand makes the sum of the first `n` smaller. -/
theorem sum_take_set_le {l : List α} {i : ℕ} {a b : α} (n : ℕ) (h : l[i]? = some a)
    (hle : f b ≤ f a) : (((l.set i b).take n).map f).sum ≤ ((l.take n).map f).sum := by
  rw [List.take_set]
  by_cases hi : i < n
  · have hget : (l.take n)[i]? = some a := by rw [List.getElem?_take_of_lt hi, h]
    have hsum := sum_map_set f b hget
    omega
  · rw [List.set_eq_of_length_le]
    exact (List.length_take_le n l).trans (not_lt.mp hi)

end Sums

/-! ### The threads of the cluster -/

/-- An IO thread; `opening` holds the sockets that `newConnection` has taken and
not opened yet, and is `none` when the thread is not in `newConnection`. -/
structure IoThread where
  app : IoApp
  opening : Option (List (ℤ × ℕ))

/-- The event is handled by the IO thread alone. -/
def Event.isHandler : Event → Bool
  | .accept _ | .acceptElsewhere | .newConnection => false
  | _ => true

namespace IoThread

/-- A step of an IO thread. -/
inductive Step
  /-- `newConnection` takes the queue, opens the next socket, and returns. -/
  | takeSockets
  | openNext
  | endRound
  /-- Any other event. -/
  | handle (e : Event)

/-- The thread after a step. -/
def step (t : IoThread) : Step → Option IoThread
  | .takeSockets =>
    if t.opening = none then some ⟨{ t.app with sockQueue := [] }, some t.app.sockQueue⟩ else none
  | .openNext =>
    match t.opening with
    | some (sock :: rest) => some ⟨t.app.openConnection sock, some rest⟩
    | _ => none
  | .endRound =>
    if t.opening = some [] then
      some ⟨{ t.app with owner := { t.app.owner with
        cache := { t.app.owner.cache with loopCount := t.app.owner.cache.loopCount + 1 } } }, none⟩
    else none
  | .handle e =>
    if t.opening = none ∧ e.isHandler then (t.app.step e).map fun app => ⟨app, none⟩ else none

/-- The sockets that have been admitted and not opened yet. -/
def waiting (t : IoThread) : List (ℤ × ℕ) := t.opening.getD [] ++ t.app.sockQueue

/-- The number of open connections. -/
def live (t : IoThread) : ℕ := t.app.liveObjs.length

/-- The number of sockets that the thread has or will have. -/
def held (t : IoThread) : ℕ := t.waiting.length + t.live

/-- The accept service takes the next id. -/
def nextId (t : IoThread) : IoThread := { t with app := { t.app with lastId := t.app.nextId } }

/-- `_sock_queue[i].put(fd, id)`. -/
def put (t : IoThread) (fd : ℤ) : IoThread :=
  { t with app := { t.app with
      lastId := t.app.nextId
      sockQueue := t.app.sockQueue ++ [(fd, t.app.nextId)] } }

/-- The steps of `newConnection`, taken one after the other, are
`newConnection`. -/
theorem newConnection_steps (t : IoThread) (h : t.opening = none) :
    runEvents step t
      (.takeSockets :: (t.app.sockQueue.map fun _ => .openNext) ++ [.endRound]) =
      some ⟨t.app.newConnection, none⟩ := by
  have hloop : ∀ (q : List (ℤ × ℕ)) (app : IoApp),
      runEvents step ⟨app, some q⟩ ((q.map fun _ => .openNext) ++ [.endRound]) =
        runEvents step ⟨q.foldl IoApp.openConnection app, some []⟩ [.endRound] := by
    intro q
    induction q with
    | nil => exact fun _ => rfl
    | cons sock q ih => exact fun app => ih (app.openConnection sock)
  have htake : step t .takeSockets =
      some ⟨{ t.app with sockQueue := [] }, some t.app.sockQueue⟩ := if_pos h
  rw [List.cons_append, runEvents, htake]
  exact hloop t.app.sockQueue _

end IoThread

/-- The accept thread in `dispatchConnection`: it has read the counters of the
threads before `i`. -/
structure Dispatch where
  fd : ℤ
  i : ℕ
  socketCount : ℤ
  min : ℤ
  /-- `int to`. -/
  target : ℕ

/-- `io::IoAppCluster`.  `admitted` counts the calls of `dispatchConnection` that
returned 0, and `closed` the connections that were closed; the program keeps
neither. -/
structure IoAppCluster where
  socketMax : ℤ
  threads : List IoThread
  dispatch : Option Dispatch
  admitted : ℕ
  closed : ℕ

namespace IoAppCluster

/-- A step of the accept thread, or of IO thread `i`. -/
inductive Step
  /-- `dispatchConnection(fd, ++_id)` is called, reads a counter, and decides. -/
  | dispatchConnection (fd : ℤ)
  | readCount
  | decide
  | io (i : ℕ) (e : IoThread.Step)

/-- The end of `dispatchConnection`. -/
def admitOrClose (c : IoAppCluster) (d : Dispatch) : Option IoAppCluster :=
  if d.socketCount < c.socketMax then
    c.threads[d.target]?.map fun t =>
      { c with
        threads := (c.threads.map IoThread.nextId).set d.target (t.put d.fd)
        dispatch := none
        admitted := c.admitted + 1 }
  else
    -- the socket is closed at once
    some { c with threads := c.threads.map IoThread.nextId, dispatch := none }

/-- The cluster after a step; a thread that has left its defined behaviour ends
the program. -/
def step (c : IoAppCluster) (e : Step) : Option IoAppCluster :=
  if c.threads.any fun t => t.app.halted then none
  else
    match e with
    | .dispatchConnection fd =>
      if c.dispatch.isNone then some { c with dispatch := some ⟨fd, 0, 0, c.socketMax, 0⟩ }
      else none
    | .readCount =>
      c.dispatch.bind fun d => c.threads[d.i]?.map fun t =>
        let k := t.app.owner.connCount
        { c with dispatch := some { d with
            i := d.i + 1
            socketCount := d.socketCount + k
            min := if k < d.min then k else d.min
            target := if k < d.min then d.i else d.target } }
    | .decide => c.dispatch.bind fun d => if d.i = c.threads.length then c.admitOrClose d else none
    | .io i e =>
      c.threads[i]?.bind fun t => (t.step e).map fun t' =>
        { c with threads := c.threads.set i t', closed := c.closed + (t.live - t'.live) }

/-- A cluster of `n` threads when it starts to run. -/
def start (socketMax : ℤ) (n : ℕ) (limits : ℤ × ℤ × ℤ) (H : Heap)
    (collector : Option MsMessageBlockQueue) (clock : ℕ → ℤ) : IoAppCluster where
  socketMax := socketMax
  threads := (List.range n).map fun i => ⟨IoApp.new i limits H collector clock, none⟩
  dispatch := none
  admitted := 0
  closed := 0

/-- The sockets that were admitted and not closed are at most `_socket_max`. -/
def Capped (c : IoAppCluster) : Prop := (c.admitted : ℤ) - c.closed ≤ c.socketMax

instance (c : IoAppCluster) : Decidable c.Capped := inferInstanceAs (Decidable (_ ≤ _))

end IoAppCluster

/-! ### What a step does to the sockets -/

namespace IoApp

variable {s s' : IoApp} {q : List (ℤ × ℕ)}

/-- Where the sockets wait is not in the books. -/
theorem Books.requeue (h : Books q s) (l : List (ℤ × ℕ)) : Books q { s with sockQueue := l } :=
  ⟨h.keyed, h.entry, h.count, h.appId, h.tears, h.socket, h.intact, h.spare, h.spareDead, h.queued,
    h.fresh, h.issued, h.issuedEntry⟩

theorem Books.connCount (h : Books q s) : s.owner.connCount = s.liveObjs.length := by
  rw [h.count, h.accounted.live]

/-- A handler opens no connection. -/
theorem live_of_after {o o' : Obj} {m : Ctx Addr (AppWorld IoAppOwner)}
    (hm : (s.objs o).1.destroy = true → m.conn.destroy = true) (hlive : (s.after o m).Live o') :
    s.Live o' := by
  refine ⟨hlive.1, ?_⟩
  have hopen := hlive.2
  rcases eq_or_ne o' o with rfl | hne
  · rw [after_objs_self] at hopen
    rcases hd : (s.objs o').1.destroy with - | -
    · rfl
    · exact absurd (hm hd) (by rw [hopen]; exact Bool.false_ne_true)
  · rwa [after_objs_of_ne s hne] at hopen

theorem step_live {e : Event} (hhandler : e.isHandler = true) (hstep : s.step e = some s') :
    s'.sockQueue = s.sockQueue ∧ ∀ o, s'.Live o → s.Live o := by
  obtain ⟨-, hhappens⟩ := step_happens hstep
  cases hhappens with
  | accept fd | acceptElsewhere | newConnection => cases hhandler
  | read ho fuel stream alloc script =>
    refine ⟨rfl, fun o' => live_of_after ?_⟩
    intro hd
    rw [readHandler_destroyed fuel hd]
    exact hd
  | write ho connected sends =>
    refine ⟨rfl, fun o' => live_of_after ?_⟩
    intro hd
    rw [writeHandler_destroyed hd]
    exact hd
  | timeout ho =>
    refine ⟨rfl, fun o' => live_of_after ?_⟩
    intro hd
    rw [timeoutHandler_destroyed hd]
    exact hd
  | push v =>
    unfold IoApp.pushMessage
    dsimp only
    split
    · refine ⟨rfl, fun o' => live_of_after ?_⟩
      intro hd
      show (IoConnection.setWrite _).destroy = true
      unfold IoConnection.setWrite
      split <;> exact hd
    · split <;> exact ⟨rfl, fun _ h => h⟩
  | outside H Q => exact ⟨rfl, fun _ h => h⟩

/-- Fewer connections are open. -/
theorem liveObjs_length_le (hlive : ∀ o, s'.Live o → s.Live o) :
    s'.liveObjs.length ≤ s.liveObjs.length := by
  refine List.Subperm.length_le (List.Nodup.subperm (List.nodup_range.filter _) ?_)
  intro o ho
  exact mem_liveObjs.mpr (hlive o (mem_liveObjs.mp ho))

/-- One more connection is open. -/
theorem Opened.liveObjs_length {sock : ℤ × ℕ} {o : Obj} (h : Books (sock :: q) s)
    (h' : Books q s') (ho : Opened s s' sock o) :
    s'.liveObjs.length = s.liveObjs.length + 1 := by
  have hcount := ho.count
  rw [h.connCount, h'.connCount] at hcount
  exact_mod_cast hcount

end IoApp

namespace IoThread

variable {t t' : IoThread} {e : Step}

/-- The read events of the thread are outside the hazard. -/
def Allowed (t : IoThread) : Step → Prop
  | .handle e => t.app.Allowed e
  | _ => True

instance (t : IoThread) (e : Step) : Decidable (t.Allowed e) :=
  match e with
  | .handle (.read ..) => inferInstanceAs (Decidable (¬ (_ ∧ _)))
  | .handle (.accept _) | .handle .acceptElsewhere | .handle .newConnection | .handle (.write ..)
  | .handle (.timeout _) | .handle (.push _) | .handle (.outside ..) | .takeSockets | .openNext
  | .endRound => isTrue trivial

/-- What a step of an IO thread does to its sockets. -/
structure Moved (t t' : IoThread) : Prop where
  books : IoApp.Books t'.waiting t'.app
  held : t'.held + (t.live - t'.live) = t.held
  /-- A thread for which no socket waits only closes connections. -/
  idle : t.waiting = [] → t'.waiting = [] ∧ t'.live ≤ t.live

/-- The sockets wait in another place, or have been counted in another way. -/
theorem Moved.of_same (books : IoApp.Books t'.waiting t'.app) (hwaiting : t'.waiting = t.waiting)
    (hlive : t'.live = t.live) : Moved t t' := by
  refine ⟨books, ?_, ?_⟩
  · rw [IoThread.held, IoThread.held, hwaiting, hlive, Nat.sub_self, Nat.add_zero]
  · rw [hwaiting, hlive]
    exact fun h => ⟨h, le_refl _⟩

/-- **A step of an IO thread** opens a waiting socket, or closes connections. -/
theorem step_moved (h : IoApp.Books t.waiting t.app) (hrun : t.app.halted = false)
    (hok : t.Allowed e) (hstep : t.step e = some t') : Moved t t' := by
  obtain ⟨app, opening⟩ := t
  cases e with
  | takeSockets =>
    dsimp only [step] at hstep
    split at hstep
    · rename_i hnone
      obtain rfl := hnone
      obtain rfl := Option.some.inj hstep
      have hwaiting : waiting ⟨{ app with sockQueue := [] }, some app.sockQueue⟩ =
          waiting ⟨app, none⟩ := List.append_nil _
      refine Moved.of_same ?_ hwaiting rfl
      rw [hwaiting]
      exact h.requeue []
    · cases hstep
  | openNext =>
    dsimp only [step] at hstep
    split at hstep
    · rename_i sock rest
      obtain rfl := Option.some.inj hstep
      obtain ⟨o, ho⟩ := IoApp.openConnection_opened (q := rest ++ app.sockQueue) h hrun
      have hbooks := h.opened hrun ho
      have hlive := ho.liveObjs_length h hbooks
      have hqueue := app.openConnection_sockQueue sock
      refine ⟨?_, ?_, fun hnone => nomatch hnone⟩
      · rw [waiting, hqueue]
        exact hbooks
      · simp only [held, waiting, live, hqueue, hlive, Option.getD_some, List.cons_append,
          List.length_cons]
        omega
    · cases hstep
  | endRound =>
    dsimp only [step] at hstep
    split at hstep
    · rename_i hnil
      obtain rfl := hnil
      obtain rfl := Option.some.inj hstep
      refine Moved.of_same ?_ rfl rfl
      exact ⟨h.keyed, h.entry, h.count, h.appId, h.tears, h.socket, h.intact, h.spare, h.spareDead,
        h.queued, h.fresh, h.issued, h.issuedEntry⟩
    · cases hstep
  | handle e =>
    dsimp only [step] at hstep
    split at hstep
    · rename_i hhandle
      obtain ⟨rfl, hhandler⟩ := hhandle
      obtain ⟨app', happ, rfl⟩ := Option.map_eq_some_iff.mp hstep
      obtain ⟨hqueue, hopen⟩ := IoApp.step_live hhandler happ
      have hlive := IoApp.liveObjs_length_le hopen
      have hids : app.IdsLeft e := by
        intro htakes
        cases e <;> cases htakes <;> cases hhandler
      refine ⟨h.step hids hok happ, ?_, ?_⟩
      · simp only [held, waiting, live, hqueue, Option.getD_none, List.nil_append]
        omega
      · intro hnone
        refine ⟨?_, hlive⟩
        rw [waiting, hqueue]
        exact hnone
    · cases hstep

end IoThread

namespace IoAppCluster

variable {c c' : IoAppCluster} {e : Step}

/-- The number of sockets that the threads hold. -/
def held (c : IoAppCluster) : ℕ := (c.threads.map IoThread.held).sum

/-- What `dispatchConnection` has seen: no socket waits, and the threads that it
has read have not more connections than it has counted. -/
structure Seen (c : IoAppCluster) (d : Dispatch) : Prop where
  none : ∀ t ∈ c.threads, t.waiting = []
  count : (((c.threads.take d.i).map IoThread.live).sum : ℤ) ≤ d.socketCount

/-- The invariant of the cluster. -/
structure Inv (c : IoAppCluster) : Prop where
  books : ∀ t ∈ c.threads, IoApp.Books t.waiting t.app
  balance : c.admitted = c.closed + c.held
  cap : (c.held : ℤ) ≤ c.socketMax
  seen : ∀ d ∈ c.dispatch, Seen c d

theorem Inv.capped (h : Inv c) : c.Capped := by
  have hbalance := h.balance
  have hcap := h.cap
  unfold Capped
  omega

/-- No socket waits when `dispatchConnection` is called, the ids of the accept
service do not wrap around, and read events are outside the hazard. -/
def Allowed (c : IoAppCluster) : Step → Prop
  | .dispatchConnection _ => ∀ t ∈ c.threads, t.waiting = []
  | .readCount => True
  | .decide => ∀ t ∈ c.threads, t.app.lastId + 1 < 2 ^ 64
  | .io i e => ∀ t ∈ c.threads[i]?, t.Allowed e

instance (c : IoAppCluster) (e : Step) : Decidable (c.Allowed e) :=
  match e with
  | .dispatchConnection _ => inferInstanceAs (Decidable (∀ t ∈ c.threads, t.waiting = []))
  | .readCount => isTrue trivial
  | .decide => inferInstanceAs (Decidable (∀ t ∈ c.threads, t.app.lastId + 1 < 2 ^ 64))
  | .io i e => inferInstanceAs (Decidable (∀ t ∈ c.threads[i]?, t.Allowed e))

/-- An IO thread takes a step. -/
theorem Inv.io {i : ℕ} {t t' : IoThread} (h : Inv c) (ht : c.threads[i]? = some t)
    (hmoved : IoThread.Moved t t') :
    Inv { c with threads := c.threads.set i t', closed := c.closed + (t.live - t'.live) } := by
  have hsum := sum_map_set IoThread.held t' ht
  have hheld := hmoved.held
  have hbalance := h.balance
  have hcap := h.cap
  unfold held at hbalance hcap
  refine ⟨?_, ?_, ?_, ?_⟩
  · intro u hu
    rcases List.mem_or_eq_of_mem_set hu with hu | rfl
    · exact h.books u hu
    · exact hmoved.books
  · show c.admitted = c.closed + (t.live - t'.live) + ((c.threads.set i t').map IoThread.held).sum
    omega
  · show (((c.threads.set i t').map IoThread.held).sum : ℤ) ≤ c.socketMax
    omega
  · -- while `dispatchConnection` runs, connections are only closed
    intro d hd
    have hseen := h.seen d hd
    obtain ⟨hwaiting, hlive⟩ := hmoved.idle (hseen.none t (List.mem_of_getElem? ht))
    refine ⟨?_, ?_⟩
    · intro u hu
      rcases List.mem_or_eq_of_mem_set hu with hu | rfl
      · exact hseen.none u hu
      · exact hwaiting
    · have hle := sum_take_set_le IoThread.live d.i ht hlive
      have hcount := hseen.count
      show (((c.threads.set i t').take d.i).map IoThread.live).sum ≤ d.socketCount
      omega

/-- `dispatchConnection` reads a counter. -/
theorem Seen.read {d d' : Dispatch} {t : IoThread} (h : Seen c d) (ht : c.threads[d.i]? = some t)
    (hbooks : IoApp.Books t.waiting t.app) (hi : d'.i = d.i + 1)
    (hcount : d'.socketCount = d.socketCount + t.app.owner.connCount) : Seen c d' := by
  refine ⟨h.none, ?_⟩
  have hsum := h.count
  rw [hi, hcount, hbooks.connCount, List.take_add_one, ht]
  simp only [Option.toList_some, List.map_append, List.map_cons, List.map_nil, List.sum_append,
    List.sum_singleton]
  show (((_ : ℕ) + t.app.liveObjs.length : ℕ) : ℤ) ≤ _
  omega

/-- A new id changes nothing but the id. -/
theorem held_nextId (l : List IoThread) :
    ((l.map IoThread.nextId).map IoThread.held).sum = (l.map IoThread.held).sum := by
  rw [List.map_map]
  rfl

theorem held_put (t : IoThread) (fd : ℤ) : (t.put fd).held = t.held + 1 := by
  have hwaiting : (t.put fd).waiting = t.waiting ++ [(fd, t.app.nextId)] :=
    (List.append_assoc ..).symm
  rw [IoThread.held, hwaiting, List.length_append, List.length_singleton, Nat.add_right_comm]
  rfl

theorem books_nextId {t : IoThread} (h : IoApp.Books t.waiting t.app)
    (hids : t.app.lastId + 1 < 2 ^ 64) : IoApp.Books t.nextId.waiting t.nextId.app :=
  h.acceptElsewhere hids

theorem books_put {t : IoThread} (h : IoApp.Books t.waiting t.app)
    (hids : t.app.lastId + 1 < 2 ^ 64) (fd : ℤ) :
    IoApp.Books (t.put fd).waiting (t.put fd).app := by
  have hwaiting : (t.put fd).waiting = t.waiting ++ [(fd, t.app.nextId)] :=
    (List.append_assoc ..).symm
  rw [hwaiting]
  exact (h.accept hids fd).requeue _

/-- All counters have been read: the open connections are not more than were
counted. -/
theorem Seen.held_le {d : Dispatch} (h : Seen c d) (hi : d.i = c.threads.length) :
    (c.held : ℤ) ≤ d.socketCount := by
  have hsame : c.threads.map IoThread.held = c.threads.map IoThread.live := by
    refine List.map_congr_left ?_
    intro t ht
    rw [IoThread.held, h.none t ht, List.length_nil, Nat.zero_add]
  have hcount := h.count
  rw [hi, List.take_length, ← hsame] at hcount
  exact hcount

/-- **The decision**: a socket that is admitted is counted against the cap with
all others. -/
theorem Inv.admitOrClose {d : Dispatch} (h : Inv c) (hseen : Seen c d)
    (hi : d.i = c.threads.length) (hids : ∀ t ∈ c.threads, t.app.lastId + 1 < 2 ^ 64)
    (hdone : c.admitOrClose d = some c') : Inv c' := by
  have hle := hseen.held_le hi
  have hbalance := h.balance
  have hcap := h.cap
  have hall : ∀ t ∈ c.threads.map IoThread.nextId, IoApp.Books t.waiting t.app := by
    intro t ht
    obtain ⟨u, hu, rfl⟩ := List.mem_map.mp ht
    exact books_nextId (h.books u hu) (hids u hu)
  unfold IoAppCluster.admitOrClose at hdone
  split at hdone
  · rename_i hmax
    obtain ⟨t, ht, rfl⟩ := Option.map_eq_some_iff.mp hdone
    have hmem := List.mem_of_getElem? ht
    have hget : (c.threads.map IoThread.nextId)[d.target]? = some t.nextId := by
      rw [List.getElem?_map, ht]
      rfl
    -- one socket more
    have hsum := sum_map_set IoThread.held (t.put d.fd) hget
    rw [held_nextId, held_put, show t.nextId.held = t.held from rfl] at hsum
    unfold held at hle hbalance hcap
    refine ⟨?_, ?_, ?_, fun _ hd => nomatch hd⟩
    · intro u hu
      rcases List.mem_or_eq_of_mem_set hu with hu | rfl
      · exact hall u hu
      · exact books_put (h.books t hmem) (hids t hmem) d.fd
    · show c.admitted + 1 = c.closed + (((c.threads.map IoThread.nextId).set d.target
        (t.put d.fd)).map IoThread.held).sum
      omega
    · show ((((c.threads.map IoThread.nextId).set d.target
        (t.put d.fd)).map IoThread.held).sum : ℤ) ≤ c.socketMax
      omega
  · obtain rfl := Option.some.inj hdone
    have hsame : held { c with threads := c.threads.map IoThread.nextId, dispatch := none } =
        c.held := held_nextId c.threads
    refine ⟨hall, ?_, ?_, fun _ hd => nomatch hd⟩
    · rw [hsame]
      exact hbalance
    · rw [hsame]
      exact hcap

/-- **A step of the cluster** within its guard. -/
theorem Inv.step (h : Inv c) (hok : c.Allowed e) (hstep : c.step e = some c') : Inv c' := by
  unfold IoAppCluster.step at hstep
  split at hstep
  · cases hstep
  · rename_i hhalted
    cases e with
    | dispatchConnection fd =>
      dsimp only at hstep
      split at hstep
      · obtain rfl := Option.some.inj hstep
        refine ⟨h.books, h.balance, h.cap, ?_⟩
        rintro d ⟨⟩
        exact ⟨hok, le_refl 0⟩
      · cases hstep
    | readCount =>
      obtain ⟨d, hd, hread⟩ := Option.bind_eq_some_iff.mp hstep
      obtain ⟨t, ht, rfl⟩ := Option.map_eq_some_iff.mp hread
      refine ⟨h.books, h.balance, h.cap, ?_⟩
      rintro d' ⟨⟩
      have hseen : Seen c { d with
          i := d.i + 1, socketCount := d.socketCount + t.app.owner.connCount } :=
        (h.seen d hd).read ht (h.books t (List.mem_of_getElem? ht)) rfl rfl
      exact ⟨hseen.none, hseen.count⟩
    | decide =>
      obtain ⟨d, hd, hdecide⟩ := Option.bind_eq_some_iff.mp hstep
      split at hdecide
      · rename_i hi
        exact h.admitOrClose (h.seen d hd) hi hok hdecide
      · cases hdecide
    | io i e =>
      obtain ⟨t, ht, hio⟩ := Option.bind_eq_some_iff.mp hstep
      obtain ⟨t', ht', rfl⟩ := Option.map_eq_some_iff.mp hio
      have hmem := List.mem_of_getElem? ht
      have hrun : t.app.halted = false := by
        rcases hh : t.app.halted with - | -
        · rfl
        · exact absurd (List.any_eq_true.mpr ⟨t, hmem, hh⟩) hhalted
      exact h.io ht (IoThread.step_moved (h.books t hmem) hrun (hok t ht) ht')

theorem inv_start {socketMax : ℤ} (hmax : 0 ≤ socketMax) (n : ℕ) (limits : ℤ × ℤ × ℤ) (H : Heap)
    (collector : Option MsMessageBlockQueue) (clock : ℕ → ℤ) :
    Inv (start socketMax n limits H collector clock) := by
  have hheld : (start socketMax n limits H collector clock).held = 0 := by
    refine List.sum_eq_zero ?_
    intro k hk
    obtain ⟨t, ht, rfl⟩ := List.mem_map.mp hk
    obtain ⟨i, -, rfl⟩ := List.mem_map.mp ht
    rfl
  refine ⟨?_, ?_, ?_, fun _ hd => nomatch hd⟩
  · intro t ht
    obtain ⟨i, -, rfl⟩ := List.mem_map.mp ht
    exact IoApp.books_new i limits H collector clock
  · rw [hheld]
    rfl
  · rw [hheld]
    exact hmax

/-- **The cap.**  In a run in which no admitted socket still waits when
`dispatchConnection` is called, and no connection is torn down twice, the
sockets that were admitted and not closed are never more than `_socket_max`. -/
theorem always_capped {socketMax : ℤ} (hmax : 0 ≤ socketMax) (n : ℕ) (limits : ℤ × ℤ × ℤ)
    (H : Heap) (collector : Option MsMessageBlockQueue) (clock : ℕ → ℤ) (es : List Step)
    (h : Guarded step Allowed (start socketMax n limits H collector clock) es) :
    Always step Capped (start socketMax n limits H collector clock) es := by
  refine Always.of_guarded (I := Inv) ?_ ?_ (inv_start hmax n limits H collector clock) h
  · exact fun c e c' h hok hstep => h.step hok hstep
  · exact fun c h => h.capped

/-- Two sockets for two threads, the second when the first has been opened. -/
theorem always_capped_two :
    Always step Capped (start 2 2 (9, 9, 9) Heap.empty none fun _ => 0)
      [.dispatchConnection 5, .readCount, .readCount, .decide, .io 0 .takeSockets,
        .io 0 .openNext, .io 0 .endRound, .dispatchConnection 6, .readCount,
        .io 0 (.handle (.timeout 0)), .readCount, .decide] := by
  exact always_capped (by decide) 2 (9, 9, 9) Heap.empty none (fun _ => 0) _ (by decide +kernel)

/-- **Over the cap.**  Two sockets are accepted before the IO thread opens the
first: both are admitted, though one is the maximum. -/
theorem admitted_uncounted :
    (runEvents step (start 1 1 (9, 9, 9) Heap.empty none fun _ => 0)
      [.dispatchConnection 5, .readCount, .decide, .dispatchConnection 6, .readCount,
        .decide]).map (fun c => (c.admitted, c.closed, c.socketMax)) = some (2, 0, 1) := by
  decide +kernel

end IoAppCluster

end Xkim
