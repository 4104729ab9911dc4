/-
MsgHandler/SimpleQueue.lean

The queue with its own nodes: `util::SimpleQueue`
(`framework/lib/simple_queue.cpp`).

A value is put into a node, and the nodes of the values that were taken out wait
in a second list, `_idle_list`, until they are needed again.  The two lists
thread through the same `_next` field, so what keeps them right is that no node
is in both (`Rep`).

`getM` takes several values in one loop, and writes `_list`, `_tail` and
`_list_size` only once behind it.  It is the same as that many calls of `_get`,
down to the nodes (`getM_eq`).
-/
import MsgHandler.Heap

namespace Xkim

namespace Util

/-- `util::SimpleQueue`, with the fields of the nodes it has made; their
addresses are below `nodes`. -/
structure SimpleQueue where
  next : Addr → Option Addr
  v : Addr → Addr
  nodes : ℕ
  idleList : Option Addr
  links : Links Addr
  listSize : ℤ

namespace SimpleQueue

/-- `SimpleQueue()`. -/
def new : SimpleQueue := ⟨fun _ => none, fun _ => 0, 0, none, Links.empty, 0⟩

def DEFAULT_NODE_COUNT : ℕ := 1024

/-- The loop of `open`, with `n` turns left. -/
def openLoop : ℕ → SimpleQueue → SimpleQueue
  | 0, q => q
  | n + 1, q =>
    openLoop n
      { q with
        next := Function.update q.next q.nodes q.idleList
        nodes := q.nodes + 1
        idleList := some q.nodes }

/-- A queue after `open()`. -/
def opened : SimpleQueue := openLoop DEFAULT_NODE_COUNT new

/-- `_get()` for the first node: its successor becomes the first one, and the node
an idle one. -/
def recycle (q : SimpleQueue) (node : Addr) : SimpleQueue :=
  let list := q.next node
  { q with
    links := ⟨list, if list = none then none else q.links.tail⟩
    next := Function.update q.next node q.idleList
    idleList := some node
    listSize := q.listSize - 1 }

/-- `_get()`; there is none where a NULL is followed. -/
def getNode (q : SimpleQueue) : Option (Addr × SimpleQueue) :=
  q.links.head.map fun node => (q.v node, q.recycle node)

/-- `get()`. -/
def get (q : SimpleQueue) : Option (Addr × SimpleQueue) :=
  if q.listSize > 0 then q.getNode else some (0, q)

/-- The loop of `getM`, with `c` turns left: the values it writes, and then the
links, `_idle_list` and `node`. -/
def getMLoop (v : Addr → Addr) :
    ℕ → (Addr → Option Addr) → Option Addr → Option Addr →
      Option (List Addr × (Addr → Option Addr) × Option Addr × Option Addr)
  | 0, next, idle, node => some ([], next, idle, node)
  | c + 1, next, idle, node =>
    node.bind fun t =>
      (getMLoop v c (Function.update next t idle) (some t) (next t)).map fun r => (v t :: r.1, r.2)

/-- What `getM` writes behind its loop. -/
def getMEnd (q : SimpleQueue) (c : ℤ) (next : Addr → Option Addr) (idle node : Option Addr) :
    SimpleQueue :=
  { q with
    next := next
    idleList := idle
    links := ⟨node, if node = none then none else q.links.tail⟩
    listSize := q.listSize - c }

/-- `getM(v, want)`: the number returned, the values written, and the queue. -/
def getM (q : SimpleQueue) (want : ℤ) : Option (ℤ × List Addr × SimpleQueue) :=
  if q.listSize ≤ 0 then some (0, [], q)
  else
    let c := if want > q.listSize then q.listSize else want
    (getMLoop q.v c.toNat q.next q.idleList q.links.head).map fun r =>
      (c, r.1, q.getMEnd c r.2.1 r.2.2.1 r.2.2.2)

/-- `put(v)`. -/
def put (q : SimpleQueue) (v : Addr) : SimpleQueue :=
  let node := q.idleList.getD q.nodes
  let r := q.links.attach (Function.update q.next node none) node node
  { next := r.1
    v := Function.update q.v node v
    nodes := if q.idleList = none then q.nodes + 1 else q.nodes
    idleList := q.idleList.bind q.next
    links := r.2
    listSize := q.listSize + 1 }

/-- `_get()`, `n` times. -/
def getTimes : ℕ → SimpleQueue → Option (List Addr × SimpleQueue)
  | 0, q => some ([], q)
  | n + 1, q => q.getNode.bind fun r => (getTimes n r.2).map fun s => (r.1 :: s.1, s.2)

/-! ### The two lists -/

/-- The nodes of the queue are `ns`, in order, the idle ones `idle`, and no node
is both. -/
structure Rep (q : SimpleQueue) (ns idle : List Addr) : Prop where
  list : Links.Rep q.next q.links ns
  idleNodes : Chain q.next q.idleList idle
  nodup : (ns ++ idle).Nodup
  lt : ∀ a ∈ ns ++ idle, a < q.nodes
  size : q.listSize = ns.length

/-- The queue holds the values `l`, in order. -/
def Holds (q : SimpleQueue) (l : List Addr) : Prop :=
  ∃ ns idle, q.Rep ns idle ∧ ns.map q.v = l

variable {q q' : SimpleQueue} {ns idle l : List Addr} {node v : Addr}

theorem Holds.size (h : q.Holds l) : q.listSize = l.length := by
  obtain ⟨ns, idle, hrep, rfl⟩ := h
  rw [hrep.size, List.length_map]

theorem Holds.tail_eq_none (h : q.Holds l) (hhead : q.links.head = none) :
    q.links.tail = none := by
  obtain ⟨ns, idle, hrep, -⟩ := h
  obtain rfl : ns = [] := List.head?_eq_none_iff.mp (hrep.list.head_eq.symm.trans hhead)
  exact hrep.list.2

/-- A node in front of the idle ones. -/
theorem chain_update_cons {next : Addr → Option Addr} {p : Option Addr} (h : Chain next p idle)
    (hnode : node ∉ idle) : Chain (Function.update next node p) (some node) (node :: idle) := by
  refine ⟨rfl, ?_⟩
  rw [Function.update_self]
  exact Seg.update hnode h

/-- Each turn of `open` makes an idle node. -/
theorem Holds.openLoop (h : q.Holds l) (n : ℕ) : (openLoop n q).Holds l := by
  induction n generalizing q with
  | zero => exact h
  | succ n ih =>
    obtain ⟨ns, idle, hrep, hl⟩ := h
    have hfresh : q.nodes ∉ ns ++ idle := fun hmem => lt_irrefl _ (hrep.lt _ hmem)
    obtain ⟨hns, hidle⟩ := not_or.mp (mt List.mem_append.mpr hfresh)
    refine ih ⟨ns, q.nodes :: idle,
      ⟨hrep.list.update hns, chain_update_cons hrep.idleNodes hidle, ?_, ?_, hrep.size⟩, hl⟩
    · exact List.perm_middle.nodup_iff.mpr (List.nodup_cons.mpr ⟨hfresh, hrep.nodup⟩)
    · intro a ha
      show a < q.nodes + 1
      rcases List.mem_cons.mp (List.perm_middle.mem_iff.mp ha) with rfl | ha
      · exact Nat.lt_succ_self _
      · exact Nat.lt_succ_of_lt (hrep.lt a ha)

theorem holds_opened : opened.Holds [] := by
  have hnew : new.Holds [] :=
    ⟨[], [], ⟨Links.rep_empty, rfl, List.nodup_nil, List.forall_mem_nil _, rfl⟩, rfl⟩
  exact hnew.openLoop DEFAULT_NODE_COUNT

/-- **`_get` takes the first value**, and its node becomes an idle one. -/
theorem Holds.getNode (h : q.Holds (v :: l)) :
    ∃ q', q.getNode = some (v, q') ∧ q'.Holds l := by
  obtain ⟨_ | ⟨node, ns⟩, idle, hrep, hv⟩ := h
  · cases hv
  obtain ⟨rfl, rfl⟩ := List.cons.inj hv
  obtain ⟨hhead, hrest⟩ := hrep.list.pop
  have hnode : node ∉ ns ++ idle := (List.nodup_cons.mp hrep.nodup).1
  obtain ⟨hns, hidle⟩ := not_or.mp (mt List.mem_append.mpr hnode)
  refine ⟨q.recycle node, by rw [SimpleQueue.getNode, hhead, Option.map_some], ns, node :: idle,
    ⟨hrest.update hns, chain_update_cons hrep.idleNodes hidle, ?_, ?_, ?_⟩, rfl⟩
  · exact List.perm_middle.nodup_iff.mpr hrep.nodup
  · intro a ha
    exact hrep.lt a (List.perm_middle.mem_iff.mp ha)
  · show q.listSize - 1 = ns.length
    rw [hrep.size, List.length_cons]
    push_cast
    ring

/-- The node that `put` uses: an idle one, or a new one. -/
theorem Rep.exists_node (h : q.Rep ns idle) (v : Addr) : ∃ idle',
    Chain q.next (q.idleList.bind q.next) idle' ∧
      (q.idleList.getD q.nodes :: (ns ++ idle')).Nodup ∧
      ∀ a ∈ q.idleList.getD q.nodes :: (ns ++ idle'), a < (q.put v).nodes := by
  have hchain := h.idleNodes
  cases idle with
  | nil =>
    have hnone : q.idleList = none := hchain
    refine ⟨[], ?_, ?_, ?_⟩
    · rw [hnone]
      rfl
    · rw [hnone]
      exact List.nodup_cons.mpr ⟨fun hmem => lt_irrefl _ (h.lt _ hmem), h.nodup⟩
    · rw [SimpleQueue.put, hnone]
      show ∀ a ∈ q.nodes :: (ns ++ []), a < q.nodes + 1
      intro a ha
      rcases List.mem_cons.mp ha with rfl | ha
      · exact Nat.lt_succ_self _
      · exact Nat.lt_succ_of_lt (h.lt a ha)
  | cons node idle =>
    obtain ⟨hsome, hrest⟩ := hchain
    refine ⟨idle, ?_, ?_, ?_⟩
    · rw [hsome]
      exact hrest
    · rw [hsome]
      exact List.perm_middle.nodup_iff.mp h.nodup
    · rw [SimpleQueue.put, hsome]
      show ∀ a ∈ node :: (ns ++ idle), a < q.nodes
      intro a ha
      exact h.lt a (List.perm_middle.mem_iff.mpr ha)

/-- **`put` appends its value.** -/
theorem Holds.put (h : q.Holds l) (v : Addr) : (q.put v).Holds (l ++ [v]) := by
  obtain ⟨ns, idle, hrep, rfl⟩ := h
  obtain ⟨idle', hchain, hnodup, hlt⟩ := hrep.exists_node v
  set node := q.idleList.getD q.nodes with hnode
  obtain ⟨hfresh, hnodup'⟩ := List.nodup_cons.mp hnodup
  obtain ⟨hns, hidle⟩ := not_or.mp (mt List.mem_append.mpr hfresh)
  have hperm : (ns ++ [node] ++ idle').Perm (node :: (ns ++ idle')) := by
    rw [List.append_assoc]
    exact List.perm_middle
  refine ⟨ns ++ [node], idle', ⟨hrep.list.push hns, ?_, ?_, ?_, ?_⟩, ?_⟩
  · -- the links of the idle nodes are not written
    refine Seg.congr hchain fun a ha => ?_
    refine Links.push_of_not_mem hrep.list hns ?_ ?_
    · rintro rfl
      exact hidle ha
    · exact fun hmem => (List.nodup_append.mp hnodup').2.2 a hmem a ha rfl
  · exact hperm.nodup_iff.mpr hnodup
  · exact fun a ha => hlt a (hperm.mem_iff.mp ha)
  · show q.listSize + 1 = (ns ++ [node]).length
    rw [hrep.size, List.length_append]
    rfl
  · show (ns ++ [node]).map (Function.update q.v node v) = ns.map q.v ++ [v]
    rw [List.map_append, List.map_singleton, Function.update_self]
    congr 1
    refine List.map_congr_left fun a ha => Function.update_of_ne ?_ _ _
    rintro rfl
    exact hns ha

/-! ### Several values at once -/

/-- `_get` on a queue that has as many values. -/
theorem Holds.getTimes {n : ℕ} (h : q.Holds l) (hn : n ≤ l.length) :
    ∃ q', getTimes n q = some (l.take n, q') ∧ q'.Holds (l.drop n) := by
  induction n generalizing q l with
  | zero => exact ⟨q, rfl, h⟩
  | succ n ih =>
    cases l with
    | nil => exact absurd hn (Nat.not_succ_le_zero n)
    | cons v l =>
      obtain ⟨q₁, hget, hq₁⟩ := h.getNode
      obtain ⟨q', hrest, hq'⟩ := ih hq₁ (Nat.le_of_succ_le_succ hn)
      refine ⟨q', ?_, hq'⟩
      rw [SimpleQueue.getTimes, hget, Option.bind_some, hrest]
      rfl

/-- The loop does not find a node behind the last one. -/
theorem getMLoop_none {v : Addr → Addr} {n : ℕ} {next : Addr → Option Addr} {p p' : Option Addr}
    {r : List Addr × (Addr → Option Addr) × Option Addr × Option Addr}
    (h : getMLoop v n next p p' = some r) (hp : p' = none) : r.2.2.2 = none := by
  subst hp
  cases n with
  | zero =>
    obtain rfl := Option.some.inj h
    rfl
  | succ n => cases h

/-- What `getM` writes behind its loop after one more turn. -/
theorem getMEnd_recycle {next : Addr → Option Addr} {p p' : Option Addr} (n : ℕ)
    (hp : q.next node = none → p' = none) :
    (q.recycle node).getMEnd n next p p' = q.getMEnd ((n + 1 : ℕ) : ℤ) next p p' := by
  have hsize : q.listSize - 1 - n = q.listSize - ((n + 1 : ℕ) : ℤ) := by
    push_cast
    ring
  have htail : (if p' = none then none else if q.next node = none then none else q.links.tail) =
      if p' = none then none else q.links.tail := by
    split_ifs with h₁ h₂
    · rfl
    · exact absurd (hp h₂) h₁
    · rfl
  rw [getMEnd, getMEnd, recycle]
  dsimp only
  rw [hsize, htail]

/-- **The loop of `getM`** does what `_get` does in each turn, and what is written
behind it is what `_get` writes in the last one. -/
theorem getTimes_eq (n : ℕ) (htail : q.links.head = none → q.links.tail = none) :
    getTimes n q = (getMLoop q.v n q.next q.idleList q.links.head).map fun r =>
      (r.1, q.getMEnd n r.2.1 r.2.2.1 r.2.2.2) := by
  induction n generalizing q with
  | zero =>
    have hlinks : (⟨q.links.head, if q.links.head = none then none else q.links.tail⟩ :
        Links Addr) = q.links := by
      split_ifs with hhead
      · rw [← htail hhead]
      · rfl
    have hend : q.getMEnd (0 : ℕ) q.next q.idleList q.links.head = q := by
      rw [getMEnd, hlinks, Nat.cast_zero, sub_zero]
    rw [getMLoop, Option.map_some, hend]
    rfl
  | succ n ih =>
    rcases hhead : q.links.head with - | node
    · rw [getTimes, getNode, hhead]
      rfl
    · have htail' : (q.recycle node).links.head = none → (q.recycle node).links.tail = none :=
        fun hnone => if_pos hnone
      rw [getTimes, getNode, hhead, Option.map_some, Option.bind_some, ih htail', getMLoop,
        Option.bind_some, Option.map_map, Option.map_map]
      refine Option.map_congr fun r hr => ?_
      show (q.v node :: r.1, (q.recycle node).getMEnd n r.2.1 r.2.2.1 r.2.2.2) = _
      rw [getMEnd_recycle n (getMLoop_none hr)]
      rfl

/-- **`getM` is `_get` so many times.** -/
theorem Holds.getM_eq (h : q.Holds l) (want : ℕ) :
    q.getM want = (SimpleQueue.getTimes (min want l.length) q).map fun r =>
      (((min want l.length : ℕ) : ℤ), r) := by
  have hsize := h.size
  rw [SimpleQueue.getM]
  by_cases hle : q.listSize ≤ 0
  · have hnil : l.length = 0 := by omega
    rw [if_pos hle, hnil, Nat.min_zero]
    rfl
  · have hc : (if (want : ℤ) > q.listSize then q.listSize else (want : ℤ)) =
        ((min want l.length : ℕ) : ℤ) := by
      split_ifs <;> omega
    rw [if_neg hle]
    dsimp only
    rw [hc, Int.toNat_natCast, getTimes_eq _ h.tail_eq_none, Option.map_map]
    rfl

end SimpleQueue

end Util

end Xkim
