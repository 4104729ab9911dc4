/-
MsgHandler/CacheNodes.lean

The connection cache with its nodes (`framework/io/connection_cache.inl`,
`lib/linked_list.h`).

A connection that is closed must not be used again in the same pass over the
new connections: events of the old one may still be on their way.  So
`recycle` notes the loop count in a node and appends the node to one list,
and `get` takes a connection only from nodes with a smaller count, which it
moves to a second list when it runs out of them; a third list holds the nodes
that are not used.

`NodeStore` is the code: the three lists are rings through the `_node` fields
of the nodes.  It refines the `ConnectionCache` of the IO thread, where they
are lists (`rep_recycle`, `rep_get`).  Over the runs of the cache, what `get`
returns is then compared with the sequence of all calls to `recycle`: the
connections come back in that order, each of them after the loop count has
been incremented (`reused_in_order`).
-/
import MsgHandler.IoApp
import MsgHandler.Ring
import MsgHandler.Run

namespace Xkim

/-! ### The store of nodes -/

/-- The three lists of a cache. -/
inductive CacheList
  | idle
  | cache
  | recycle
  deriving DecidableEq, Repr

/-- Whatever has a `ListNodeLinkType`: the head of a list, or a node. -/
inductive NodeCell
  | head (w : CacheList)
  | node (n : ℕ)
  deriving DecidableEq, Repr

/-- `io::ConnectionCache` with the fields of its nodes; `nodes` counts those
that were allocated. -/
structure NodeStore (T : Type) where
  loopCount : ℕ
  nodes : ℕ
  links : DLinks NodeCell
  conn : ℕ → Option T
  whichLoop : ℕ → ℕ

namespace NodeStore

variable {T : Type}

/-- The constructor, where nothing is known about the memory of the nodes. -/
def new (L : DLinks NodeCell) (conn : ℕ → Option T) (whichLoop : ℕ → ℕ) : NodeStore T where
  loopCount := 0
  nodes := 0
  links := ((L.init (.head .idle)).init (.head .cache)).init (.head .recycle)
  conn := conn
  whichLoop := whichLoop

/-- `first()` of a list. -/
def firstNode (S : NodeStore T) (w : CacheList) : Option ℕ :=
  match S.links.first (.head w) with
  | some (.node n) => some n
  | _ => none

def remove (S : NodeStore T) (n : ℕ) : NodeStore T :=
  { S with links := S.links.remove (.node n) }

def add (S : NodeStore T) (w : CacheList) (n : ℕ) : NodeStore T :=
  { S with links := S.links.add (.head w) (.node n) }

def addLast (S : NodeStore T) (w : CacheList) (n : ℕ) : NodeStore T :=
  { S with links := S.links.addLast (.head w) (.node n) }

/-- `open()`, with the number of nodes it allocates. -/
def openNodes : ℕ → NodeStore T → NodeStore T
  | 0, S => S
  | k + 1, S => openNodes k ({ S with nodes := S.nodes + 1 }.add .idle S.nodes)

/-- The last lines of `recycle`. -/
def recycleIn (S : NodeStore T) (n : ℕ) (conn : T) : NodeStore T :=
  { S with
    conn := Function.update S.conn n (some conn)
    whichLoop := Function.update S.whichLoop n S.loopCount }.addLast .recycle n

def recycle (S : NodeStore T) (conn : T) : NodeStore T :=
  match S.firstNode .idle with
  | some n => (S.remove n).recycleIn n conn
  | none => { S with nodes := S.nodes + 1 }.recycleIn S.nodes conn

/-- The connection of the node, which goes to the idle ones. -/
def take (S : NodeStore T) (n : ℕ) : Option T × NodeStore T :=
  (S.conn n, { S.remove n with conn := Function.update S.conn n none }.add .idle n)

/-- The loop of `get`; `none` if it has not come to an end. -/
def promote : ℕ → NodeStore T → Bool → Option (NodeStore T × Bool)
  | 0, _, _ => none
  | fuel + 1, S, flag =>
    match S.firstNode .recycle with
    | none => some (S, flag)
    | some n =>
      if S.loopCount ≤ S.whichLoop n then some (S, flag)
      else promote fuel ((S.remove n).addLast .cache n) true

/-- What `get` returns. -/
inductive Got (T : Type)
  | constructed
  | reused (conn : Option T)
  deriving DecidableEq, Repr

/-- `get()`.  Every turn of its loop takes a node out of a list, so that there
are no more of them than nodes.  `none` would be a loop without end, or a NULL
node. -/
def get (S : NodeStore T) : Option (Got T × NodeStore T) :=
  match S.firstNode .cache with
  | some n => some (.reused (S.take n).1, (S.take n).2)
  | none =>
    match promote (S.nodes + 1) S false with
    | none => none
    | some (S', true) =>
      (S'.firstNode .cache).map fun n => (.reused (S'.take n).1, (S'.take n).2)
    | some (S', false) => some (.constructed, S')

end NodeStore

/-! ### The lists of nodes -/

namespace ConnectionCache

variable {T : Type}

/-- The nodes of the three lists. -/
def lists (K : ConnectionCache T) : CacheList → List NodeCell
  | .idle => K.idleNode.map .node
  | .cache => K.cache.map fun n => .node n.addr
  | .recycle => K.recycled.map fun n => .node n.addr

/-- The addresses of the nodes of the three lists. -/
def addrs (K : ConnectionCache T) : List ℕ :=
  K.idleNode ++ K.cache.map ConnNode.addr ++ K.recycled.map ConnNode.addr

theorem mem_addrs {K : ConnectionCache T} {w : CacheList} {n : ℕ} (h : .node n ∈ K.lists w) :
    n ∈ K.addrs := by
  unfold addrs
  cases w with
  | idle =>
    obtain ⟨m, hm, heq⟩ := List.mem_map.mp h
    cases heq
    simp [hm]
  | cache =>
    obtain ⟨m, hm, heq⟩ := List.mem_map.mp h
    cases heq
    simp only [List.mem_append]
    exact Or.inl (Or.inr (List.mem_map_of_mem hm))
  | recycle =>
    obtain ⟨m, hm, heq⟩ := List.mem_map.mp h
    cases heq
    exact List.mem_append_right _ (List.mem_map_of_mem hm)

/-- The nodes of the three lists are all nodes there are, each of them once. -/
def Partition (K : ConnectionCache T) : Prop := K.addrs.Perm (List.range K.nodes)

/-- One more idle node. -/
def addIdle (K : ConnectionCache T) : ConnectionCache T :=
  { K with nodes := K.nodes + 1, idleNode := K.nodes :: K.idleNode }

theorem Partition.addIdle {K : ConnectionCache T} (h : K.Partition) : K.addIdle.Partition := by
  show (K.nodes :: K.addrs).Perm (List.range (K.nodes + 1))
  rw [List.range_succ]
  exact (h.cons K.nodes).trans (List.perm_append_singleton _ _).symm

theorem Partition.recycle {K : ConnectionCache T} (h : K.Partition) (conn : T) :
    (K.recycle conn).Partition := by
  unfold ConnectionCache.recycle
  rcases hidle : K.idleNode with - | ⟨n, idle⟩
  · unfold Partition addrs at h
    rw [hidle] at h
    show ([] ++ K.cache.map ConnNode.addr ++
      (K.recycled ++ [(⟨K.nodes, conn, K.loopCount⟩ : ConnNode T)]).map ConnNode.addr).Perm
        (List.range (K.nodes + 1))
    rw [List.map_append, ← List.append_assoc, List.range_succ]
    exact h.append_right [K.nodes]
  · refine List.Perm.trans ?_ h
    show (idle ++ K.cache.map ConnNode.addr ++
      (K.recycled ++ [(⟨n, conn, K.loopCount⟩ : ConnNode T)]).map ConnNode.addr).Perm K.addrs
    rw [addrs, hidle, List.map_append, ← List.append_assoc]
    exact List.perm_append_singleton n _

/-! ### What is ready to be used again -/

/-- The nodes that were recycled before the current loop count. -/
def ready (K : ConnectionCache T) : List (ConnNode T) :=
  K.recycled.takeWhile fun n => n.whichLoop < K.loopCount

/-- They are moved to the cache. -/
def promoted (K : ConnectionCache T) : ConnectionCache T :=
  { K with
    cache := K.cache ++ K.ready
    recycled := K.recycled.dropWhile fun n => n.whichLoop < K.loopCount }

theorem promoted_of_nil (K : ConnectionCache T) (h : K.recycled = []) :
    K.ready = [] ∧ K.promoted = K := by
  have hready : K.ready = [] := by simp [ready, h]
  refine ⟨hready, ?_⟩
  obtain ⟨loopCount, nodes, idle, cache, recycled⟩ := K
  obtain rfl : recycled = [] := h
  simp [promoted, hready]

theorem promoted_of_le (K : ConnectionCache T) {n : ConnNode T} {recycled : List (ConnNode T)}
    (h : K.recycled = n :: recycled) (hle : K.loopCount ≤ n.whichLoop) :
    K.ready = [] ∧ K.promoted = K := by
  have hready : K.ready = [] := by simp [ready, h, hle]
  refine ⟨hready, ?_⟩
  obtain ⟨loopCount, nodes, idle, cache, recycled'⟩ := K
  obtain rfl : recycled' = n :: recycled := h
  have hnot : ¬ n.whichLoop < loopCount := not_lt.mpr hle
  simp [promoted, hready, hnot]

theorem promoted_of_lt (K : ConnectionCache T) {n : ConnNode T} {recycled : List (ConnNode T)}
    (h : K.recycled = n :: recycled) (hlt : n.whichLoop < K.loopCount) :
    K.ready ≠ [] ∧
      ({ K with cache := K.cache ++ [n], recycled := recycled } : ConnectionCache T).promoted =
        K.promoted := by
  refine ⟨by simp [ready, h, hlt], ?_⟩
  simp [promoted, ready, h, hlt]

theorem get_of_not_ready (K : ConnectionCache T) (hcache : K.cache = []) (hready : K.ready = []) :
    K.get = (none, K) ∧ K.promoted = K := by
  unfold ready at hready
  refine ⟨by simp only [get, hcache, hready], ?_⟩
  have hsplit := List.takeWhile_append_dropWhile
    (p := fun n : ConnNode T => decide (n.whichLoop < K.loopCount)) (l := K.recycled)
  rw [hready, List.nil_append] at hsplit
  obtain ⟨loopCount, nodes, idle, cache, recycled⟩ := K
  simp only [promoted, ready] at hready hsplit ⊢
  rw [hready, hsplit, List.append_nil]

theorem get_of_ready (K : ConnectionCache T) {n : ConnNode T} {moved : List (ConnNode T)}
    (hcache : K.cache = []) (hready : K.ready = n :: moved) :
    K.get = (some n.conn, { K.promoted with
        cache := moved, idleNode := n.addr :: K.promoted.idleNode }) ∧
      K.promoted.cache = n :: moved := by
  refine ⟨?_, by simp [promoted, hcache, hready]⟩
  unfold ready at hready
  simp only [get, hcache, hready]
  rfl

/-- The connections that wait to be used again, with their loop counts. -/
def waiting (K : ConnectionCache T) : List (T × ℕ) :=
  (K.cache ++ K.recycled).map fun n => (n.conn, n.whichLoop)

/-- Every node in the cache was recycled before the current loop count. -/
def Cooled (K : ConnectionCache T) : Prop := ∀ n ∈ K.cache, n.whichLoop < K.loopCount

/-- **What `get` does**: it takes the connection that waits for the longest
time, which was recycled before the current loop count, or none. -/
theorem get_waiting (K : ConnectionCache T) (hcooled : K.Cooled) :
    K.get = (none, K) ∨ ∃ conn loop K', K.get = (some conn, K') ∧
      K.waiting = (conn, loop) :: K'.waiting ∧ loop < K.loopCount ∧ K'.Cooled ∧
        K'.loopCount = K.loopCount := by
  rcases hcache : K.cache with - | ⟨n, cache⟩
  · rcases hready : K.ready with - | ⟨n, moved⟩
    · exact Or.inl (K.get_of_not_ready hcache hready).1
    · obtain ⟨hget, hpromoted⟩ := K.get_of_ready hcache hready
      have hcool : ∀ m ∈ n :: moved, m.whichLoop < K.loopCount := by
        intro m hm
        rw [← hready] at hm
        unfold ready at hm
        have hlt := List.mem_takeWhile_imp hm
        exact of_decide_eq_true hlt
      have hsplit : K.recycled = n :: moved ++ K.promoted.recycled := by
        rw [← hready]
        exact List.takeWhile_append_dropWhile.symm
      refine Or.inr ⟨_, n.whichLoop, _, hget, ?_, hcool n List.mem_cons_self, ?_, rfl⟩
      · rw [waiting, hcache, hsplit]
        rfl
      · exact fun m hm => hcool m (List.mem_cons_of_mem n hm)
  · refine Or.inr ⟨n.conn, n.whichLoop, { K with cache := cache, idleNode := n.addr :: K.idleNode },
      by simp only [get, hcache], ?_, ?_, ?_, rfl⟩
    · rw [waiting, hcache]
      rfl
    · exact hcooled n (by simp [hcache])
    · exact fun m hm => hcooled m (by rw [hcache]; exact List.mem_cons_of_mem n hm)

theorem waiting_recycle (K : ConnectionCache T) (conn : T) :
    (K.recycle conn).waiting = K.waiting ++ [(conn, K.loopCount)] ∧
      (K.recycle conn).cache = K.cache ∧ (K.recycle conn).loopCount = K.loopCount := by
  unfold recycle
  split <;> simp [waiting]

end ConnectionCache

/-! ### Refinement -/

namespace NodeStore

variable {T : Type} {S : NodeStore T} {K : ConnectionCache T}

/-- The store holds the nodes of the cache: each list is a ring, no node is
in two of them, and the nodes with connections have the fields they should. -/
structure Rep (S : NodeStore T) (K : ConnectionCache T) : Prop where
  loopCount : S.loopCount = K.loopCount
  nodes : S.nodes = K.nodes
  rings : S.links.Rings NodeCell.head K.lists
  partition : K.Partition
  fields : ∀ n ∈ K.cache ++ K.recycled,
    S.conn n.addr = some n.conn ∧ S.whichLoop n.addr = n.whichLoop

theorem Rep.firstNode_eq (h : S.Rep K) {w : CacheList} {ns : List ℕ}
    (hw : K.lists w = ns.map .node) : S.firstNode w = ns.head? := by
  unfold firstNode
  rw [(h.rings.ring w).first_eq, hw]
  cases ns <;> rfl

theorem Rep.firstNode_cache (h : S.Rep K) :
    S.firstNode .cache = (K.cache.map ConnNode.addr).head? :=
  h.firstNode_eq (by simp [ConnectionCache.lists])

theorem Rep.firstNode_recycle (h : S.Rep K) :
    S.firstNode .recycle = (K.recycled.map ConnNode.addr).head? :=
  h.firstNode_eq (by simp [ConnectionCache.lists])

/-- A node that was not allocated is in no list. -/
theorem Rep.fresh (h : S.Rep K) (w : CacheList) :
    NodeCell.node S.nodes ∉ NodeCell.head w :: K.lists w := by
  intro hmem
  rcases List.mem_cons.mp hmem with heq | hmem
  · cases heq
  · have hlt := List.mem_range.mp (h.partition.mem_iff.mp (ConnectionCache.mem_addrs hmem))
    rw [h.nodes] at hlt
    exact lt_irrefl _ hlt

/-- The fields of the nodes with connections do not change when another node
is written. -/
theorem addr_ne {n : ℕ} (hcache : NodeCell.node n ∉ K.lists .cache)
    (hrecycle : NodeCell.node n ∉ K.lists .recycle) : ∀ c ∈ K.cache ++ K.recycled, c.addr ≠ n := by
  rintro c hc rfl
  rcases List.mem_append.mp hc with hc | hc
  · exact hcache (List.mem_map_of_mem hc)
  · exact hrecycle (List.mem_map_of_mem hc)

theorem rep_new (L : DLinks NodeCell) (conn : ℕ → Option T) (whichLoop : ℕ → ℕ) :
    (new L conn whichLoop).Rep ConnectionCache.new := by
  have hring : ∀ w, ((new L conn whichLoop).links).Ring (.head w) [] := by
    intro w
    cases w with
    | idle =>
      exact ((DLinks.ring_init L _).link_of_not_mem (by simp) (by simp)).link_of_not_mem
        (by simp) (by simp)
    | cache => exact (DLinks.ring_init _ _).link_of_not_mem (by simp) (by simp)
    | recycle => exact DLinks.ring_init _ _
  have hnil : (ConnectionCache.new : ConnectionCache T).lists = fun _ => [] := by
    funext w
    cases w <;> rfl
  refine ⟨rfl, rfl, ⟨?_, ?_⟩, List.Perm.refl _, ?_⟩
  · rw [hnil]
    exact hring
  · rw [hnil]
    intro w w' hne c hc hc'
    rw [List.mem_singleton] at hc hc'
    exact hne (NodeCell.head.inj (hc.symm.trans hc'))
  · intro n hn
    simp [ConnectionCache.new] at hn

theorem rep_openNodes (h : S.Rep K) (k : ℕ) :
    (openNodes k S).Rep (ConnectionCache.addIdle^[k] K) := by
  induction k generalizing S K with
  | zero => exact h
  | succ k ih =>
    refine ih ⟨h.loopCount, ?_, ?_, h.partition.addIdle, h.fields⟩
    · show S.nodes + 1 = K.nodes + 1
      rw [h.nodes]
    · refine (h.rings.add h.fresh .idle).congr fun w => ?_
      rw [h.nodes]
      cases w <;> rfl

/-- The fields after a connection was written to a node that had none. -/
theorem Rep.fields_recycleIn (h : S.Rep K) {n : ℕ} (hn : ∀ c ∈ K.cache ++ K.recycled, c.addr ≠ n)
    (conn : T) : ∀ c ∈ K.cache ++ (K.recycled ++ [⟨n, conn, K.loopCount⟩]),
      Function.update S.conn n (some conn) c.addr = some c.conn ∧
        Function.update S.whichLoop n S.loopCount c.addr = c.whichLoop := by
  intro c hc
  rw [← List.append_assoc] at hc
  rcases List.mem_append.mp hc with hc | hc
  · rw [Function.update_of_ne (hn c hc), Function.update_of_ne (hn c hc)]
    exact h.fields c hc
  · obtain rfl := List.mem_singleton.mp hc
    rw [Function.update_self, Function.update_self]
    exact ⟨rfl, h.loopCount⟩

/-- **`recycle` refines its model.** -/
theorem rep_recycle (h : S.Rep K) (conn : T) : (S.recycle conn).Rep (K.recycle conn) := by
  have hpart := h.partition.recycle conn
  unfold NodeStore.recycle
  rw [h.firstNode_eq (w := .idle) rfl]
  rcases hidle : K.idleNode with - | ⟨n, idle⟩
  · -- a new node
    have heq : K.recycle conn = { K with
        nodes := K.nodes + 1, recycled := K.recycled ++ [⟨K.nodes, conn, K.loopCount⟩] } := by
      simp only [ConnectionCache.recycle, hidle]
    rw [heq] at hpart ⊢
    have hcache := List.not_mem_of_not_mem_cons (h.fresh .cache)
    have hrecycle := List.not_mem_of_not_mem_cons (h.fresh .recycle)
    refine ⟨h.loopCount, ?_, ?_, hpart, ?_⟩
    · show S.nodes + 1 = K.nodes + 1
      rw [h.nodes]
    · refine (h.rings.addLast h.fresh .recycle).congr fun w => ?_
      rw [h.nodes]
      cases w <;> simp [ConnectionCache.lists]
    · have hfields := h.fields_recycleIn (addr_ne hcache hrecycle) conn
      rw [h.nodes] at hfields
      show ∀ c : ConnNode T, c ∈ _ → Function.update S.conn S.nodes (some conn) c.addr = _ ∧
        Function.update S.whichLoop S.nodes S.loopCount c.addr = _
      rw [h.nodes]
      exact hfields
  · -- the first of the idle ones
    have heq : K.recycle conn = { K with
        idleNode := idle, recycled := K.recycled ++ [⟨n, conn, K.loopCount⟩] } := by
      simp only [ConnectionCache.recycle, hidle]
    rw [heq] at hpart ⊢
    have hfirst : K.lists .idle = .node n :: idle.map .node := by
      simp [ConnectionCache.lists, hidle]
    obtain ⟨hremoved, hout⟩ := h.rings.remove hfirst
    refine ⟨h.loopCount, h.nodes, ?_, hpart, ?_⟩
    · refine (hremoved.addLast hout .recycle).congr fun w => ?_
      cases w <;> simp [ConnectionCache.lists]
    · refine h.fields_recycleIn (addr_ne ?_ ?_) conn
      · exact List.not_mem_of_not_mem_cons (hout .cache)
      · exact List.not_mem_of_not_mem_cons (hout .recycle)

/-- **Taking the first node of the cache** refines its model. -/
theorem rep_take (h : S.Rep K) {n : ConnNode T} {cache : List (ConnNode T)}
    (hcache : K.cache = n :: cache) :
    (S.take n.addr).1 = some n.conn ∧
      (S.take n.addr).2.Rep { K with cache := cache, idleNode := n.addr :: K.idleNode } := by
  have hfirst : K.lists .cache = .node n.addr :: cache.map fun n => .node n.addr := by
    simp [ConnectionCache.lists, hcache]
  obtain ⟨hremoved, hout⟩ := h.rings.remove hfirst
  refine ⟨(h.fields n (by simp [hcache])).1, h.loopCount, h.nodes, ?_, ?_, ?_⟩
  · refine (hremoved.add hout .idle).congr fun w => ?_
    cases w <;> simp [ConnectionCache.lists]
  · refine List.Perm.trans ?_ h.partition
    show (n.addr :: K.idleNode ++ cache.map ConnNode.addr ++ K.recycled.map ConnNode.addr).Perm _
    rw [ConnectionCache.addrs, hcache, List.map_cons]
    exact (List.perm_middle.symm.append_right _)
  · intro c hc
    have hne : c.addr ≠ n.addr := by
      intro heq
      rcases List.mem_append.mp hc with hc | hc
      · refine List.not_mem_of_not_mem_cons (hout .cache) ?_
        rw [Function.update_self, ← heq]
        exact List.mem_map_of_mem hc
      · refine List.not_mem_of_not_mem_cons (hout .recycle) ?_
        rw [Function.update_of_ne (by simp), ← heq]
        exact List.mem_map_of_mem hc
    have hfields := h.fields c (by
      rw [hcache]
      exact List.mem_cons_of_mem n hc)
    refine ⟨?_, hfields.2⟩
    show Function.update S.conn n.addr none c.addr = _
    rw [Function.update_of_ne hne]
    exact hfields.1

/-- The first of the recycled nodes is moved to the cache. -/
theorem rep_move (h : S.Rep K) {n : ConnNode T} {recycled : List (ConnNode T)}
    (hrecycled : K.recycled = n :: recycled) :
    ((S.remove n.addr).addLast .cache n.addr).Rep
      { K with cache := K.cache ++ [n], recycled := recycled } := by
  have hfirst : K.lists .recycle = .node n.addr :: recycled.map fun n => .node n.addr := by
    simp [ConnectionCache.lists, hrecycled]
  obtain ⟨hremoved, hout⟩ := h.rings.remove hfirst
  refine ⟨h.loopCount, h.nodes, ?_, ?_, ?_⟩
  · refine (hremoved.addLast hout .cache).congr fun w => ?_
    cases w <;> simp [ConnectionCache.lists]
  · have hpart := h.partition
    unfold ConnectionCache.Partition ConnectionCache.addrs at hpart ⊢
    rw [hrecycled] at hpart
    simpa using hpart
  · intro c hc
    refine h.fields c ?_
    rw [hrecycled]
    simpa using hc

/-- **The loop of `get`** moves the nodes that were recycled before the current
loop count, and tells whether there were any. -/
theorem rep_promote {fuel : ℕ} (h : S.Rep K) (hfuel : K.recycled.length < fuel) (flag : Bool) :
    ∃ S', promote fuel S flag = some (S', flag || !K.ready.isEmpty) ∧ S'.Rep K.promoted := by
  induction fuel generalizing S K flag with
  | zero => exact absurd hfuel (Nat.not_lt_zero _)
  | succ fuel ih =>
    have hfirst := h.firstNode_recycle
    rcases hrecycled : K.recycled with - | ⟨n, recycled⟩
    · obtain ⟨hready, hsame⟩ := K.promoted_of_nil hrecycled
      rw [hrecycled] at hfirst
      refine ⟨S, ?_, hsame.symm ▸ h⟩
      simp only [promote, hfirst, hready]
      simp
    · have hloop : S.whichLoop n.addr = n.whichLoop := (h.fields n (by simp [hrecycled])).2
      have hfirst' : S.firstNode .recycle = some n.addr := by rw [hfirst, hrecycled]; rfl
      simp only [promote, hfirst', hloop, h.loopCount]
      split_ifs with hle
      · obtain ⟨hready, hsame⟩ := K.promoted_of_le hrecycled hle
        refine ⟨S, ?_, hsame.symm ▸ h⟩
        simp [hready]
      · obtain ⟨hready, hmoved⟩ := K.promoted_of_lt hrecycled (not_le.mp hle)
        rw [hrecycled, List.length_cons] at hfuel
        obtain ⟨S', hrest, hrep⟩ := ih (rep_move h hrecycled) (Nat.lt_of_succ_lt_succ hfuel) true
        refine ⟨S', ?_, hmoved ▸ hrep⟩
        rw [hrest]
        simp [hready]

/-- No list is longer than there are nodes. -/
theorem Rep.recycled_lt (h : S.Rep K) : K.recycled.length < S.nodes + 1 := by
  have hlen := h.partition.length_eq
  rw [ConnectionCache.addrs, List.length_append, List.length_map, List.length_range] at hlen
  rw [h.nodes]
  omega

/-- **`get` refines its model**, and comes to an end. -/
theorem rep_get (h : S.Rep K) :
    ∃ S', S'.Rep K.get.2 ∧ S.get = some (match K.get.1 with
      | none => .constructed
      | some conn => .reused (some conn), S') := by
  have hfirst := h.firstNode_cache
  unfold NodeStore.get
  rcases hcache : K.cache with - | ⟨n, cache⟩
  · have hnone : S.firstNode .cache = none := by rw [hfirst, hcache]; rfl
    obtain ⟨S', hpromote, hrep⟩ := rep_promote h h.recycled_lt false
    rw [hnone, hpromote, Bool.false_or]
    rcases hready : K.ready with - | ⟨n, moved⟩
    · -- nothing is ready
      obtain ⟨hget, hsame⟩ := K.get_of_not_ready hcache hready
      refine ⟨S', ?_, ?_⟩
      · rw [hget]
        exact hsame ▸ hrep
      · rw [hget]
        rfl
    · obtain ⟨hget, hpromoted⟩ := K.get_of_ready hcache hready
      obtain ⟨htake, hrest⟩ := rep_take hrep hpromoted
      have hfirst' : S'.firstNode .cache = some n.addr := by
        rw [hrep.firstNode_cache, hpromoted]
        rfl
      refine ⟨(S'.take n.addr).2, ?_, ?_⟩
      · rw [hget]
        exact hrest
      · rw [hget]
        simp [hfirst', htake]
  · obtain ⟨htake, hrest⟩ := rep_take h hcache
    have hsome : S.firstNode .cache = some n.addr := by rw [hfirst, hcache]; rfl
    have hget : K.get =
        (some n.conn, { K with cache := cache, idleNode := n.addr :: K.idleNode }) := by
      simp only [ConnectionCache.get, hcache]
    refine ⟨(S.take n.addr).2, ?_, ?_⟩
    · rw [hget]
      exact hrest
    · rw [hget, hsome]
      simp [htake]

end NodeStore

/-! ### Runs of the cache -/

/-- A cache, the number of connections that were constructed, those that are
handed out, all calls to `recycle` so far with the loop count, and the
connections that were used again, in order. -/
structure CacheRun where
  store : NodeStore ℕ
  brk : ℕ
  out : List ℕ
  recycles : List (ℕ × ℕ)
  reused : List ℕ

/-- A call, or the end of `newConnection`. -/
inductive CacheEvent
  | get
  | recycle (conn : ℕ)
  | endOfPass
  deriving DecidableEq, Repr

/-- The loop count at the last recycle of the connection. -/
def lastRecycle (recycles : List (ℕ × ℕ)) (conn : ℕ) : Option ℕ :=
  ((recycles.filter fun e => e.1 = conn).getLast?).map Prod.snd

namespace CacheRun

/-- A cache with `k` nodes from `open`. -/
def new (k : ℕ) (L : DLinks NodeCell) (conn : ℕ → Option ℕ) (whichLoop : ℕ → ℕ) : CacheRun :=
  ⟨(NodeStore.new L conn whichLoop).openNodes k, 0, [], [], []⟩

/-- One event.  A connection can be recycled once for each time it was handed
out, and the loop count is an `int64_t`. -/
def step (s : CacheRun) : CacheEvent → Option CacheRun
  | .get =>
    match s.store.get with
    | some (.constructed, S) => some { s with store := S, brk := s.brk + 1, out := s.brk :: s.out }
    | some (.reused (some conn), S) =>
      some { s with store := S, out := conn :: s.out, reused := s.reused ++ [conn] }
    | _ => none
  | .recycle conn =>
    if conn ∈ s.out then
      some { s with
        store := s.store.recycle conn
        out := s.out.erase conn
        recycles := s.recycles ++ [(conn, s.store.loopCount)] }
    else none
  | .endOfPass =>
    if s.store.loopCount + 1 < 2 ^ 63 then
      some { s with store := { s.store with loopCount := s.store.loopCount + 1 } }
    else none

/-- What holds in every state: `get` returns a connection that is constructed
now, or one that is not handed out and was last recycled at a smaller loop
count; the connections used again are the first of those recycled, in the
same order; and the nodes of the three lists are all nodes there are, each of
them once. -/
structure Sound (s : CacheRun) : Prop where
  get : ∃ got S, s.store.get = some (got, S) ∧ (got = .constructed ∨
    ∃ conn loop, got = .reused (some conn) ∧ conn ∉ s.out ∧
      lastRecycle s.recycles conn = some loop ∧ loop < s.store.loopCount)
  fresh : s.brk ∉ s.out
  order : s.reused <+: s.recycles.map Prod.fst
  partition : ∃ ns : CacheList → List ℕ,
    s.store.links.Rings NodeCell.head (fun w => (ns w).map .node) ∧
      (ns .idle ++ ns .cache ++ ns .recycle).Perm (List.range s.store.nodes)

/-- The cache as a list of connections that wait, behind those that were used
again already. -/
structure Follows (s : CacheRun) (K : ConnectionCache ℕ) : Prop where
  rep : s.store.Rep K
  cooled : K.Cooled
  history : ∃ before, s.recycles = before ++ K.waiting ∧ before.map Prod.fst = s.reused
  nodup : (s.out ++ K.waiting.map Prod.fst).Nodup
  lt : ∀ conn ∈ s.out ++ K.waiting.map Prod.fst, conn < s.brk

variable {s s' : CacheRun} {K : ConnectionCache ℕ}

theorem follows_new (k : ℕ) (L : DLinks NodeCell) (conn : ℕ → Option ℕ) (whichLoop : ℕ → ℕ) :
    ∃ K, (new k L conn whichLoop).Follows K := by
  have hrep := NodeStore.rep_openNodes (NodeStore.rep_new L conn whichLoop) k
  have hempty : ∀ k, (ConnectionCache.addIdle^[k] (.new : ConnectionCache ℕ)).cache = [] ∧
      (ConnectionCache.addIdle^[k] (.new : ConnectionCache ℕ)).recycled = [] := by
    intro k
    induction k with
    | zero => exact ⟨rfl, rfl⟩
    | succ k ih =>
      rw [Function.iterate_succ_apply']
      exact ih
  obtain ⟨hcache, hrecycled⟩ := hempty k
  have hwaiting : (ConnectionCache.addIdle^[k] (.new : ConnectionCache ℕ)).waiting = [] := by
    simp [ConnectionCache.waiting, hcache, hrecycled]
  refine ⟨_, hrep, ?_, ⟨[], ?_, rfl⟩, ?_, ?_⟩
  · intro n hn
    simp [hcache] at hn
  · rw [hwaiting]
    rfl
  · rw [hwaiting]
    exact List.nodup_nil
  · rw [hwaiting]
    intro c hc
    exact absurd hc (by simp [new])

/-- The last recycle of a connection that waits is the one it waits for. -/
theorem lastRecycle_of_waiting {before rest : List (ℕ × ℕ)} {conn loop : ℕ}
    (hrest : conn ∉ rest.map Prod.fst) :
    lastRecycle (before ++ (conn, loop) :: rest) conn = some loop := by
  have hnone : rest.filter (fun e => decide (e.1 = conn)) = [] := by
    refine List.filter_eq_nil_iff.mpr ?_
    intro e he heq
    exact hrest (List.mem_map.mpr ⟨e, he, of_decide_eq_true heq⟩)
  simp [lastRecycle, List.filter_append, hnone]

theorem Follows.sound (h : s.Follows K) : s.Sound := by
  obtain ⟨before, hrecycles, hreused⟩ := h.history
  refine ⟨?_, ?_, ?_, ?_⟩
  · obtain ⟨S, -, hget⟩ := NodeStore.rep_get h.rep
    rcases K.get_waiting h.cooled with hnone | ⟨conn, loop, K', hsome, hwaiting, hlt, -, -⟩
    · rw [hnone] at hget
      exact ⟨_, S, hget, Or.inl rfl⟩
    · rw [hsome] at hget
      have hnd := h.nodup
      rw [hwaiting, List.map_cons] at hnd
      refine ⟨_, S, hget, Or.inr ⟨conn, loop, rfl, ?_, ?_, ?_⟩⟩
      · intro hout
        exact (List.nodup_append.mp hnd).2.2 conn hout conn List.mem_cons_self rfl
      · rw [hrecycles, hwaiting]
        exact lastRecycle_of_waiting (List.nodup_cons.mp (List.nodup_append.mp hnd).2.1).1
      · rw [h.rep.loopCount]
        exact hlt
  · intro hbrk
    exact lt_irrefl _ (h.lt s.brk (List.mem_append_left _ hbrk))
  · rw [hrecycles, List.map_append, hreused]
    exact List.prefix_append _ _
  · refine ⟨fun
      | .idle => K.idleNode
      | .cache => K.cache.map ConnNode.addr
      | .recycle => K.recycled.map ConnNode.addr, ?_, ?_⟩
    · refine h.rep.rings.congr fun w => ?_
      cases w <;> simp [ConnectionCache.lists]
    · rw [h.rep.nodes]
      exact h.rep.partition

theorem Follows.get (h : s.Follows K) (hstep : step s .get = some s') : ∃ K', s'.Follows K' := by
  obtain ⟨S, hrep, hget⟩ := NodeStore.rep_get h.rep
  rcases K.get_waiting h.cooled with hnone | ⟨conn, loop, K', hsome, hwaiting, -, hcooled, -⟩
  · -- a new connection is handed out
    rw [hnone] at hget hrep
    simp only [step, hget, Option.some.injEq] at hstep
    obtain rfl := hstep
    refine ⟨K, hrep, h.cooled, h.history, ?_, ?_⟩
    · refine List.nodup_cons.mpr ⟨?_, h.nodup⟩
      intro hmem
      exact lt_irrefl _ (h.lt s.brk hmem)
    · intro c hc
      rcases List.mem_cons.mp hc with rfl | hc
      · exact Nat.lt_succ_self _
      · exact Nat.lt_succ_of_lt (h.lt c hc)
  · -- the first one that waits goes to those handed out
    rw [hsome] at hget hrep
    simp only [step, hget, Option.some.injEq] at hstep
    obtain rfl := hstep
    obtain ⟨before, hrecycles, hreused⟩ := h.history
    have hperm : (conn :: s.out ++ K'.waiting.map Prod.fst).Perm
        (s.out ++ K.waiting.map Prod.fst) := by
      rw [hwaiting]
      exact List.perm_middle.symm
    refine ⟨K', hrep, hcooled, ⟨before ++ [(conn, loop)], ?_, ?_⟩, ?_, ?_⟩
    · rw [hrecycles, hwaiting]
      simp
    · rw [List.map_append, hreused]
      rfl
    · exact hperm.nodup_iff.mpr h.nodup
    · intro c hc
      exact h.lt c (hperm.mem_iff.mp hc)

theorem Follows.recycle (h : s.Follows K) {conn : ℕ} (hstep : step s (.recycle conn) = some s') :
    ∃ K', s'.Follows K' := by
  dsimp only [step] at hstep
  split_ifs at hstep with hout
  obtain rfl := Option.some.inj hstep
  obtain ⟨hwaiting, hcache, hloop⟩ := K.waiting_recycle conn
  obtain ⟨before, hrecycles, hreused⟩ := h.history
  have hperm : (s.out.erase conn ++ (K.recycle conn).waiting.map Prod.fst).Perm
      (s.out ++ K.waiting.map Prod.fst) := by
    rw [hwaiting, List.map_append, ← List.append_assoc]
    refine (List.perm_append_singleton conn _).trans ?_
    exact (List.perm_cons_erase hout).symm.append_right _
  refine ⟨K.recycle conn, NodeStore.rep_recycle h.rep conn, ?_, ⟨before, ?_, hreused⟩, ?_, ?_⟩
  · intro n hn
    rw [hcache] at hn
    rw [hloop]
    exact h.cooled n hn
  · show s.recycles ++ [(conn, s.store.loopCount)] = _
    rw [hrecycles, hwaiting, h.rep.loopCount, List.append_assoc]
  · exact hperm.nodup_iff.mpr h.nodup
  · intro c hc
    exact h.lt c (hperm.mem_iff.mp hc)

theorem Follows.endOfPass (h : s.Follows K) :
    ∃ K', CacheRun.Follows
      { s with store := { s.store with loopCount := s.store.loopCount + 1 } } K' := by
  refine ⟨{ K with loopCount := K.loopCount + 1 },
    ⟨congrArg (· + 1) h.rep.loopCount, h.rep.nodes, ?_, h.rep.partition, h.rep.fields⟩,
    fun n hn => Nat.lt_succ_of_lt (h.cooled n hn), h.history, h.nodup, h.lt⟩
  refine h.rep.rings.congr fun w => ?_
  cases w <;> rfl

/-- **The cache hands out no connection that is busy or just closed.**  For
every sequence of calls and passes, `get` returns a new connection or one that
was recycled in an earlier pass and is not handed out; connections come back
in the order in which they were recycled, once for each time; and the three
lists share out the nodes among them. -/
theorem reused_in_order (k : ℕ) (L : DLinks NodeCell) (conn : ℕ → Option ℕ) (whichLoop : ℕ → ℕ)
    (es : List CacheEvent) : Always step Sound (new k L conn whichLoop) es := by
  refine Always.of_guarded (I := fun s => ∃ K, s.Follows K) (G := fun _ _ => True) ?_ ?_
    (follows_new k L conn whichLoop) (guarded_true _ _)
  · rintro s e s' ⟨K, h⟩ - hstep
    cases e with
    | get => exact h.get hstep
    | recycle conn => exact h.recycle hstep
    | endOfPass =>
      obtain ⟨-, hstep⟩ := Option.ite_none_right_eq_some.mp hstep
      obtain rfl := Option.some.inj hstep
      exact h.endOfPass
  · rintro s ⟨K, h⟩
    exact h.sound

end CacheRun

end Xkim
