/-
MsgHandler/Pilot/WaitList.lean

The list at which threads wait: `wait_list_t` (`thrift/pilot/wait_list.h`), over
`linked_list_t` (`thrift/pilot/linked_list.h`).

It is a circular list with a mutex, a condition variable and a flag.  `put` adds
a node at the head.  The calls for a node differ in the end they take it from, in
whether they wait, and in whether they give up after some time.  `flush` clears
the flag and wakes everybody: from then on no call waits, and each returns NULL.

The list is a monitor in the sense of `MsgHandler/Monitor.lean`.  `put` signals
also after `flush`, when it does not add its node, which does no harm.
-/
import MsgHandler.Monitor
import MsgHandler.Pilot.ConnPool
import MsgHandler.Ring

namespace Xkim

namespace Pilot

open Monitor (Allowed State start taken added Served)

/-! ### The code -/

/-- `struct timespec`. -/
structure Timespec where
  sec : ℤ
  nsec : ℤ
  deriving DecidableEq, Repr

/-- The time until which `timed_get` waits. -/
def deadline (now timeout : Timeval) : Timespec :=
  let ts : Timespec := ⟨now.sec + timeout.sec, (now.usec + timeout.usec) * 1000⟩
  if ts.nsec ≥ 1000000000 then ⟨ts.sec + 1, ts.nsec - 1000000000⟩ else ts

/-- `pthread_cond_timedwait` does not return `EINVAL`. -/
def Timespec.valid (ts : Timespec) : Bool := 0 ≤ ts.nsec && ts.nsec < 1000000000

/-- `wait_list_t`; its nodes are `N`, and the links are those of all nodes, with
`none` for `_head`. -/
structure WaitList (N : Type) where
  links : DLinks (Option N)
  alive : Bool
  num : ℤ

/-- The calls for a node. -/
inductive WaitCall
  | get
  | getFromHead
  | tryGet
  | tryGetFromHead
  /-- `timed_get(timeout)`, with the time at which it is called. -/
  | timedGet (now timeout : Timeval)
  | timedGetFromHead (now timeout : Timeval)
  deriving DecidableEq

namespace WaitList

variable {N : Type} [DecidableEq N]

/-- `wait_list_t()`. -/
def new (links : DLinks (Option N)) : WaitList N := ⟨links.init none, true, 0⟩

/-- `is_empty()`. -/
def isEmpty (w : WaitList N) : Bool := w.links.next none = none

/-- `put(node)`, without the signal. -/
def put (node : N) (w : WaitList N) : WaitList N :=
  if w.alive then { w with links := w.links.add none (some node), num := w.num + 1 } else w

/-- `flush()`, without the broadcast. -/
def flush (w : WaitList N) : WaitList N := { w with alive := false }

/-- What follows the waiting: a node is taken from one end of a list that is alive.
The list is not empty then, so that `entry` is not NULL. -/
def take (fromHead : Bool) (w : WaitList N) : Option N × WaitList N :=
  if w.alive then
    let ret := if fromHead then w.links.next none else w.links.prev none
    (ret, { w with links := w.links.remove ret, num := w.num - 1 })
  else (none, w)

/-- `get()` and `get_from_head()`: one turn of the loop, and what follows it. -/
def getAt (fromHead : Bool) (w : WaitList N) : Option (Option N × WaitList N) :=
  if w.alive && w.isEmpty then none else some (w.take fromHead)

/-- `try_get()` and `try_get_from_head()`. -/
def tryGetAt (fromHead : Bool) (w : WaitList N) : Option N × WaitList N :=
  if w.alive && !w.isEmpty then w.take fromHead else (none, w)

/-- `timed_get(timeout)` and `timed_get_from_head(timeout)`: one turn of the loop,
and what follows it.  An invalid time ends the loop at once. -/
def timedGetAt (fromHead : Bool) (now timeout : Timeval) (w : WaitList N) :
    Option (Option N × WaitList N) :=
  if w.alive && w.isEmpty then if (deadline now timeout).valid then none else some (none, w)
  else some (w.take fromHead)

end WaitList

/-! ### The list as a monitor -/

/-- The list, with the nodes that it holds. -/
structure WaitRun (N : Type) where
  list : WaitList N
  nodes : List N

/-- `put` and `flush`, or a change of links by another list. -/
inductive WaitPut (N : Type)
  | put (node : N)
  | flush
  | outside (links : DLinks (Option N))

namespace WaitRun

variable {N : Type} [DecidableEq N]

def new (links : DLinks (Option N)) : WaitRun N := ⟨.new links, []⟩

/-- The result of a call, and the nodes without it. -/
def after (s : WaitRun N) (r : Option N × WaitList N) : Option N × WaitRun N :=
  (r.1, ⟨r.2, r.1.elim s.nodes s.nodes.erase⟩)

/-- One turn of the loop of a call, and what follows it. -/
def attempt : WaitCall → WaitRun N → Option (Option N × WaitRun N)
  | .get, s => (s.list.getAt false).map s.after
  | .getFromHead, s => (s.list.getAt true).map s.after
  | .tryGet, s => some (s.after (s.list.tryGetAt false))
  | .tryGetFromHead, s => some (s.after (s.list.tryGetAt true))
  | .timedGet now timeout, s => (s.list.timedGetAt false now timeout).map s.after
  | .timedGetFromHead now timeout, s => (s.list.timedGetAt true now timeout).map s.after

/-- The nodes that an operation adds. -/
def offer : WaitPut N → WaitRun N → List N
  | .put node, s => if s.list.alive then [node] else []
  | .flush, _ => []
  | .outside _, _ => []

def produce (p : WaitPut N) (s : WaitRun N) : WaitRun N :=
  match p with
  | .put node => ⟨s.list.put node, s.offer (.put node) ++ s.nodes⟩
  | .flush => ⟨s.list.flush, s.nodes⟩
  | .outside links => ⟨{ s.list with links := links }, s.nodes⟩

/-- The list as a monitor: `put` signals, and `flush` wakes everybody. -/
def monitor : Monitor (WaitRun N) WaitCall (WaitPut N) (Option N) where
  attempt := attempt
  timeout
    | .timedGet _ _ | .timedGetFromHead _ _ => some none
    | _ => none
  produce := produce
  wake
    | .put _ => .one
    | .flush => .all
    | .outside _ => .nobody

/-- What the callers promise: a node that is put is not in the list, and nobody
else writes the links of the nodes in the list. -/
def Promised : WaitPut N → WaitRun N → Prop
  | .put node, s => node ∉ s.nodes
  | .flush, _ => True
  | .outside links, s => ∀ c ∈ none :: s.nodes.map some,
    links.next c = s.list.links.next c ∧ links.prev c = s.list.links.prev c

instance (p : WaitPut N) (s : WaitRun N) : Decidable (Promised p s) :=
  match p with
  | .put _ => inferInstanceAs (Decidable (_ ∉ _))
  | .flush => isTrue trivial
  | .outside _ => inferInstanceAs (Decidable (∀ c ∈ _, _))

/-! ### One call -/

/-- The links are those of the nodes, and `_num` is their number. -/
structure Sound (s : WaitRun N) : Prop where
  ring : s.list.links.Ring none (s.nodes.map some)
  num : s.list.num = s.nodes.length

variable {s : WaitRun N}

omit [DecidableEq N] in
theorem Sound.next_head (hs : s.Sound) : s.list.links.next none = s.nodes.head? := by
  rw [hs.ring.linked.next_eq]
  cases s.nodes <;> rfl

omit [DecidableEq N] in
theorem Sound.prev_head (hs : s.Sound) : s.list.links.prev none = s.nodes.getLast? := by
  have hback : s.list.links.reverse.next none = _ := hs.ring.reverse.linked.next_eq
  rw [← List.map_reverse] at hback
  rw [← List.head?_reverse]
  refine hback.trans ?_
  cases s.nodes.reverse <;> rfl

omit [DecidableEq N] in
theorem Sound.isEmpty_iff (hs : s.Sound) : s.list.isEmpty = true ↔ s.nodes = [] := by
  rw [WaitList.isEmpty, hs.next_head, decide_eq_true_iff, List.head?_eq_none_iff]

/-- Any node can be taken out. -/
theorem Sound.remove (hs : s.Sound) {node : N} (hnode : node ∈ s.nodes) :
    Sound ⟨{ s.list with links := s.list.links.remove (some node), num := s.list.num - 1 },
      s.nodes.erase node⟩ := by
  obtain ⟨l₁, l₂, hl⟩ := List.append_of_mem hnode
  have hring := hs.ring
  have hnum := hs.num
  rw [hl, List.map_append, List.map_cons] at hring
  rw [hl, List.length_append, List.length_cons] at hnum
  have hnot : node ∉ l₁ := by
    intro hmem
    have hnd := (List.nodup_cons.mp hring.nodup).2
    exact (List.nodup_append.mp hnd).2.2 _ (List.mem_map_of_mem hmem) _ List.mem_cons_self rfl
  have herase : s.nodes.erase node = l₁ ++ l₂ := by
    rw [hl, List.erase_append_right _ hnot, List.erase_cons_head]
  rw [herase]
  refine ⟨?_, ?_⟩
  · show (s.list.links.remove (some node)).Ring none ((l₁ ++ l₂).map some)
    rw [List.map_append]
    exact hring.remove
  · show s.list.num - 1 = _
    rw [hnum, List.length_append]
    push_cast
    ring

/-- What a call that returns does: it takes its node out of the list, and is given
NULL only if the list is not alive or empty. -/
structure Takes (s : WaitRun N) (r : Option N × WaitRun N) : Prop where
  sound : r.2.Sound
  alive : r.2.list.alive = s.list.alive
  nodes : (r.1.toList ++ r.2.nodes).Perm s.nodes
  null : r.1 = none → s.list.alive = true → s.nodes = []

theorem takes_null (hs : s.Sound) (h : s.list.alive = true → s.nodes = []) :
    Takes s (s.after (none, s.list)) :=
  ⟨hs, rfl, List.Perm.refl _, fun _ => h⟩

theorem takes_take (hs : s.Sound) (h : s.list.alive = true → s.nodes ≠ []) (fromHead : Bool) :
    Takes s (s.after (s.list.take fromHead)) := by
  unfold WaitList.take
  split
  · rename_i halive
    obtain ⟨node, hmem, hret⟩ : ∃ node ∈ s.nodes,
        (if fromHead then s.list.links.next none else s.list.links.prev none) = some node := by
      rw [hs.next_head, hs.prev_head]
      cases fromHead with
      | true =>
        refine ⟨s.nodes.head (h halive), List.head_mem _, ?_⟩
        exact List.head?_eq_some_head _
      | false =>
        refine ⟨s.nodes.getLast (h halive), List.getLast_mem _, ?_⟩
        exact List.getLast?_eq_some_getLast _
    dsimp only
    rw [hret]
    refine ⟨hs.remove hmem, rfl, ?_, nofun⟩
    exact (List.perm_cons_erase hmem).symm
  · rename_i halive
    exact takes_null hs fun h => absurd h halive

theorem takes_tryGetAt (hs : s.Sound) (fromHead : Bool) :
    Takes s (s.after (s.list.tryGetAt fromHead)) := by
  unfold WaitList.tryGetAt
  split
  · rename_i h
    refine takes_take hs (fun _ hnil => ?_) fromHead
    rw [hs.isEmpty_iff.mpr hnil] at h
    simp at h
  · rename_i h
    refine takes_null hs fun halive => hs.isEmpty_iff.mp ?_
    simpa [halive] using h

/-- **A call waits only at an empty list that is alive**, and otherwise takes a
node. -/
theorem attempt_spec (hs : s.Sound) (a : WaitCall) :
    (s.attempt a = none ∧ s.list.alive = true ∧ s.nodes = []) ∨
      ∃ r, s.attempt a = some r ∧ Takes s r := by
  cases hwait : s.list.alive && s.list.isEmpty with
  | true =>
    obtain ⟨halive, hempty⟩ := Bool.and_eq_true_iff.mp hwait
    have hnil := hs.isEmpty_iff.mp hempty
    have hget (b : Bool) : (s.list.getAt b).map s.after = none := by
      rw [WaitList.getAt, hwait, if_pos rfl, Option.map_none]
    have htimed (b : Bool) (now timeout : Timeval) :
        (s.list.timedGetAt b now timeout).map s.after = none ∨
          (s.list.timedGetAt b now timeout).map s.after = some (s.after (none, s.list)) := by
      rw [WaitList.timedGetAt, hwait, if_pos rfl]
      cases (deadline now timeout).valid with
      | true => exact .inl rfl
      | false => exact .inr rfl
    cases a with
    | get => exact .inl ⟨hget false, halive, hnil⟩
    | getFromHead => exact .inl ⟨hget true, halive, hnil⟩
    | tryGet => exact .inr ⟨_, rfl, takes_tryGetAt hs false⟩
    | tryGetFromHead => exact .inr ⟨_, rfl, takes_tryGetAt hs true⟩
    | timedGet now timeout =>
      exact (htimed false now timeout).imp (fun h => ⟨h, halive, hnil⟩)
        fun h => ⟨_, h, takes_null hs fun _ => hnil⟩
    | timedGetFromHead now timeout =>
      exact (htimed true now timeout).imp (fun h => ⟨h, halive, hnil⟩)
        fun h => ⟨_, h, takes_null hs fun _ => hnil⟩
  | false =>
    have hne : s.list.alive = true → s.nodes ≠ [] := by
      intro halive hnil
      rw [halive, hs.isEmpty_iff.mpr hnil] at hwait
      cases hwait
    have hget (b : Bool) :
        (s.list.getAt b).map s.after = some (s.after (s.list.take b)) := by
      rw [WaitList.getAt, hwait, if_neg Bool.false_ne_true, Option.map_some]
    have htimed (b : Bool) (now timeout : Timeval) :
        (s.list.timedGetAt b now timeout).map s.after = some (s.after (s.list.take b)) := by
      rw [WaitList.timedGetAt, hwait, if_neg Bool.false_ne_true, Option.map_some]
    right
    cases a with
    | get => exact ⟨_, hget false, takes_take hs hne false⟩
    | getFromHead => exact ⟨_, hget true, takes_take hs hne true⟩
    | tryGet => exact ⟨_, rfl, takes_tryGetAt hs false⟩
    | tryGetFromHead => exact ⟨_, rfl, takes_tryGetAt hs true⟩
    | timedGet now timeout => exact ⟨_, htimed false now timeout, takes_take hs hne false⟩
    | timedGetFromHead now timeout => exact ⟨_, htimed true now timeout, takes_take hs hne true⟩

theorem takes_of_attempt (hs : s.Sound) {a : WaitCall} {v : Option N} {s' : WaitRun N}
    (h : s.attempt a = some (v, s')) : Takes s (v, s') := by
  rcases attempt_spec hs a with ⟨hnone, -⟩ | ⟨r, hr, htakes⟩
  · rw [hnone] at h
    cases h
  · obtain rfl := Option.some.inj (hr.symm.trans h)
    exact htakes

theorem Sound.produce (hs : s.Sound) {p : WaitPut N} (hok : Promised p s) :
    (produce p s).Sound := by
  cases p with
  | put node =>
    cases halive : s.list.alive with
    | true =>
      have hput : WaitRun.produce (.put node) s =
          ⟨{ s.list with links := s.list.links.add none (some node), num := s.list.num + 1 },
            node :: s.nodes⟩ := by
        simp [WaitRun.produce, WaitList.put, offer, halive]
      rw [hput]
      refine ⟨hs.ring.add ?_, ?_⟩
      · have hnode : node ∉ s.nodes := hok
        simpa using hnode
      · show s.list.num + 1 = _
        rw [hs.num, List.length_cons]
        push_cast
        ring
    | false =>
      have hput : WaitRun.produce (.put node) s = s := by
        simp [WaitRun.produce, WaitList.put, offer, halive]
      rw [hput]
      exact hs
  | flush => exact ⟨hs.ring, hs.num⟩
  | outside links => exact ⟨hs.ring.congr hok, hs.num⟩

theorem keeps : (monitor (N := N)).Keeps Sound Promised where
  attempt hs h := (takes_of_attempt hs h).sound
  produce hs hok := hs.produce hok

/-! ### All threads -/

/-- The threads that a list can serve: one for each node, and all of them when it
is not alive any more. -/
def backlog (s : WaitRun N) : ℕ∞ := if s.list.alive then s.nodes.length else ⊤

omit [DecidableEq N] in
theorem backlog_takes {r : Option N × WaitRun N} (h : Takes s r) :
    r.2.backlog = 0 ∨ r.2.backlog + 1 ≤ s.backlog := by
  unfold backlog
  rw [h.alive]
  cases halive : s.list.alive with
  | false => exact .inr le_top
  | true =>
    have hlen := h.nodes.length_eq
    rw [List.length_append] at hlen
    rcases hv : r.1 with - | node
    · left
      have hzero : r.2.nodes.length = 0 := by
        rw [h.null hv halive, hv] at hlen
        simpa using hlen
      simp [hzero]
    · right
      rw [hv] at hlen
      refine le_of_eq ?_
      have hnat : r.2.nodes.length + 1 = s.nodes.length := by
        simpa [Nat.add_comm] using hlen
      simp [← hnat]

theorem backlog_put (node : N) : (produce (.put node) s).backlog ≤ s.backlog + 1 := by
  unfold backlog produce WaitList.put offer
  cases halive : s.list.alive <;> simp [halive]

theorem nodes_produce (p : WaitPut N) :
    (s.nodes ++ offer p s).Perm (produce p s).nodes := by
  cases p with
  | put node => exact List.perm_append_comm
  | flush | outside => exact List.Perm.of_eq (List.append_nil _)

/-- One thread sleeps, and another one for some time.  A node wakes the first, but
the second, whose time is over, comes before it; a third call takes the node.  The
first thread sleeps again until `flush`. -/
def flushEvents : List (Monitor.Event (Fin 3) WaitCall (WaitPut ℕ)) :=
  [.call 0 .get, .call 1 (.timedGet ⟨3, 700000⟩ ⟨1, 500000⟩), .produce (.put 7) (some 0),
    .expire 1, .resume 1, .call 2 .getFromHead, .resume 0, .produce .flush none,
    .produce (.put 8) none, .resume 0]

end WaitRun

end Pilot

end Xkim
