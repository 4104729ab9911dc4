/-
MsgHandler/LinkedList.lean

The intrusive circular list `util::LinkedListType` (`framework/lib/linked_list.h`).

A list is a head that lies in a circle with the nodes; the links are a field of
the nodes, so there is one memory of links for all lists of a node type.  The
operations that name a list, `add` and `addLast`, work at its head.  The others
are static: `addPrev`, `addNext` and `remove` do not know which list the node
is in that they are given.

What they are for is said by `Seqs`, a sequence for each list: push-front,
push-back, insert-before, insert-after and delete.  `always_refines` says that
over any run of any number of lists, each of which is constructed at some time,
the walks through the links are exactly these sequences, and their reverses.
The separation of the lists is part of the invariant
(`DLinks.PartialRings`), since without it the static operations could not be
followed.
-/
import MsgHandler.Ring
import MsgHandler.Run

namespace Xkim

/-! ### The code -/

/-- Whatever has a `ListNodeLinkType`: the `_head` of a list, or a node.  A `T*`
is given by the cell of the node. -/
inductive ListCell (ι T : Type*)
  | head (i : ι)
  | node (v : T)
  deriving DecidableEq

variable {ι T : Type*}

namespace LinkedListType

variable [DecidableEq ι] [DecidableEq T] (L : DLinks (ListCell ι T))

/-- `LinkedListType()`. -/
def construct (i : ι) : DLinks (ListCell ι T) := L.init (.head i)

def empty (i : ι) : Bool := L.next (.head i) = .head i

/-- `entry(node)`: NULL for the head. -/
def entry (i : ι) (c : ListCell ι T) : Option (ListCell ι T) :=
  if c = .head i then none else some c

def add (i : ι) (node : T) : DLinks (ListCell ι T) := L.add (.head i) (.node node)

def addLast (i : ι) (node : T) : DLinks (ListCell ι T) := L.addLast (.head i) (.node node)

def first (i : ι) : Option (ListCell ι T) :=
  if empty L i then none else some (L.next (.head i))

def last (i : ι) : Option (ListCell ι T) :=
  if empty L i then none else some (L.prev (.head i))

/-- `_next(node)`, of a node or of `head()`. -/
def next (i : ι) (node : ListCell ι T) : Option (ListCell ι T) := entry i (L.next node)

/-- `_prev(node)`, of a node or of `head()`. -/
def prev (i : ι) (node : ListCell ι T) : Option (ListCell ι T) := entry i (L.prev node)

/-- `addPrev(node, cur)`: the four writes of `addLast`, with `cur` for the head. -/
def addPrev (node cur : T) : DLinks (ListCell ι T) := L.addLast (.node cur) (.node node)

/-- `addNext(node, cur)`: the four writes of `add`, with `cur` for the head. -/
def addNext (node cur : T) : DLinks (ListCell ι T) := L.add (.node cur) (.node node)

def remove (node : T) : DLinks (ListCell ι T) := L.remove (.node node)

variable {L} {i : ι} {l : List (ListCell ι T)}

theorem first_eq (hr : L.Ring (.head i) l) : first L i = l.head? := by
  rw [← hr.first_eq]
  simp [first, empty, DLinks.first]

/-- `last()` asks `_head._next` whether the list is empty. -/
theorem last_eq (hr : L.Ring (.head i) l) : last L i = l.getLast? := by
  have hfirst : DLinks.first L (.head i) = l.head? := hr.first_eq
  have hbefore : DLinks.before L (.head i) (.head i) = l.getLast? := by
    rw [hr.chain_before.head_eq, List.head?_reverse]
  cases l with
  | nil =>
    have hempty : L.next (.head i) = .head i := by
      by_contra hne
      rw [DLinks.first, if_neg hne] at hfirst
      cases hfirst
    simp [last, empty, hempty]
  | cons a l =>
    -- then neither of the links of the head leads back to it
    have hne : L.next (.head i) ≠ .head i := by
      intro heq
      rw [DLinks.first, if_pos heq] at hfirst
      cases hfirst
    rw [← hbefore, DLinks.before]
    have hprev : L.prev (.head i) ≠ .head i := by
      intro heq
      rw [DLinks.before, if_pos heq, List.getLast?_cons] at hbefore
      cases hbefore
    simp [last, empty, hne, hprev]

theorem empty_eq (hr : L.Ring (.head i) l) : empty L i = l.isEmpty := by
  have hfirst := first_eq hr
  cases hempty : empty L i with
  | true =>
    rw [first, hempty] at hfirst
    cases l with
    | nil => rfl
    | cons a l => cases hfirst
  | false =>
    rw [first, hempty] at hfirst
    cases l with
    | nil => cases hfirst
    | cons a l => rfl

end LinkedListType

/-! ### What it is for -/

section Sequences

variable [DecidableEq T]

/-- Put the nodes `new` in the place of `cur`. -/
def splice (cur : T) (new : List T) : List T → List T
  | [] => []
  | a :: l => if a = cur then new ++ l else a :: splice cur new l

/-- Put `v` before `cur`. -/
def insertBefore (v cur : T) : List T → List T := splice cur [v, cur]

/-- Put `v` behind `cur`. -/
def insertAfter (v cur : T) : List T → List T := splice cur [cur, v]

variable {cur : T} {l l₁ l₂ : List T}

theorem splice_of_not_mem (new : List T) (h : cur ∉ l) : splice cur new l = l := by
  induction l with
  | nil => rfl
  | cons a l ih =>
    obtain ⟨hne, hmem⟩ := List.ne_and_not_mem_of_not_mem_cons h
    rw [splice, if_neg hne.symm, ih hmem]

theorem splice_append (new : List T) (h : cur ∉ l₁) :
    splice cur new (l₁ ++ cur :: l₂) = l₁ ++ (new ++ l₂) := by
  induction l₁ with
  | nil => exact if_pos rfl
  | cons a l₁ ih =>
    obtain ⟨hne, hmem⟩ := List.ne_and_not_mem_of_not_mem_cons h
    rw [List.cons_append, splice, if_neg hne.symm, ih hmem, List.cons_append]

end Sequences

/-- The sequences of the lists that have been constructed. -/
abbrev Seqs (ι T : Type*) := ι → Option (List T)

namespace Seqs

variable [DecidableEq ι] [DecidableEq T]

def pushFront (S : Seqs ι T) (i : ι) (v : T) : Seqs ι T :=
  Function.update S i ((S i).map fun l => v :: l)

def pushBack (S : Seqs ι T) (i : ι) (v : T) : Seqs ι T :=
  Function.update S i ((S i).map fun l => l ++ [v])

/-- The sequence with `cur` gets `v`, and so for the others. -/
def insertBefore (S : Seqs ι T) (v cur : T) : Seqs ι T :=
  fun i => (S i).map (Xkim.insertBefore v cur)

def insertAfter (S : Seqs ι T) (v cur : T) : Seqs ι T :=
  fun i => (S i).map (Xkim.insertAfter v cur)

def delete (S : Seqs ι T) (v : T) : Seqs ι T := fun i => (S i).map fun l => l.erase v

/-- The node is in one of the sequences. -/
def Holds (S : Seqs ι T) (v : T) : Prop := ∃ i, ∃ l ∈ S i, v ∈ l

instance [Fintype ι] (S : Seqs ι T) (v : T) : Decidable (S.Holds v) :=
  inferInstanceAs (Decidable (∃ i, ∃ l ∈ S i, v ∈ l))

end Seqs

/-! ### Runs -/

/-- The links of all lists, and the sequences that they stand for. -/
structure ListRun (ι T : Type*) where
  links : DLinks (ListCell ι T)
  seqs : Seqs ι T

/-- An operation, or a change of the memory by other code. -/
inductive ListEvent (ι T : Type*)
  | construct (i : ι)
  | add (i : ι) (node : T)
  | addLast (i : ι) (node : T)
  | addPrev (node cur : T)
  | addNext (node cur : T)
  | remove (node : T)
  | outside (L : DLinks (ListCell ι T))

namespace ListRun

section Code

variable [DecidableEq ι] [DecidableEq T]

/-- Some memory, and no list in it. -/
def new (L : DLinks (ListCell ι T)) : ListRun ι T := ⟨L, fun _ => none⟩

def step (s : ListRun ι T) : ListEvent ι T → Option (ListRun ι T)
  | .construct i =>
    some ⟨LinkedListType.construct s.links i, Function.update s.seqs i (some [])⟩
  | .add i node => some ⟨LinkedListType.add s.links i node, s.seqs.pushFront i node⟩
  | .addLast i node => some ⟨LinkedListType.addLast s.links i node, s.seqs.pushBack i node⟩
  | .addPrev node cur =>
    some ⟨LinkedListType.addPrev s.links node cur, s.seqs.insertBefore node cur⟩
  | .addNext node cur =>
    some ⟨LinkedListType.addNext s.links node cur, s.seqs.insertAfter node cur⟩
  | .remove node => some ⟨LinkedListType.remove s.links node, s.seqs.delete node⟩
  | .outside L => some ⟨L, s.seqs⟩

/-- How lists are used: they are constructed once and first, nodes are added that
are not linked, next to nodes that are, and linked nodes are removed.  Other
code does not write the links of a head or of a linked node. -/
def Usable (s : ListRun ι T) : ListEvent ι T → Prop
  | .construct i => s.seqs i = none
  | .add i node | .addLast i node => s.seqs i ≠ none ∧ ¬ s.seqs.Holds node
  | .addPrev node cur | .addNext node cur => ¬ s.seqs.Holds node ∧ s.seqs.Holds cur
  | .remove node => s.seqs.Holds node
  | .outside L => ∀ i, ∀ l ∈ s.seqs i, ∀ c ∈ ListCell.head i :: l.map .node,
    L.next c = s.links.next c ∧ L.prev c = s.links.prev c

instance [Fintype ι] (s : ListRun ι T) (e : ListEvent ι T) : Decidable (s.Usable e) :=
  match e with
  | .construct _ => inferInstanceAs (Decidable (_ = _))
  | .add _ _ | .addLast _ _ => inferInstanceAs (Decidable (_ ∧ ¬ _))
  | .addPrev _ _ | .addNext _ _ => inferInstanceAs (Decidable (¬ _ ∧ _))
  | .remove _ => inferInstanceAs (Decidable (Seqs.Holds _ _))
  | .outside _ => inferInstanceAs (Decidable (∀ i, ∀ l ∈ s.seqs i, ∀ c ∈ _, _))

/-- **Each list is its sequence**: walking with `_next` from `first()` visits the
nodes of the sequence and then finds NULL, and walking with `_prev` from `last()`
visits them in the opposite order; `first()`, `last()` and `empty()` are those
of the sequence; and no node is on two lists. -/
structure Refines (s : ListRun ι T) : Prop where
  forward : ∀ i, ∀ l ∈ s.seqs i, Chain (LinkedListType.next s.links i)
    (LinkedListType.first s.links i) (l.map .node)
  backward : ∀ i, ∀ l ∈ s.seqs i, Chain (LinkedListType.prev s.links i)
    (LinkedListType.last s.links i) (l.reverse.map .node)
  first : ∀ i, ∀ l ∈ s.seqs i, LinkedListType.first s.links i = l.head?.map .node
  last : ∀ i, ∀ l ∈ s.seqs i, LinkedListType.last s.links i = l.getLast?.map .node
  empty : ∀ i, ∀ l ∈ s.seqs i, LinkedListType.empty s.links i = l.isEmpty
  apart : ∀ i j, i ≠ j → ∀ l ∈ s.seqs i, ∀ m ∈ s.seqs j, ∀ v ∈ l, v ∉ m

end Code

/-! ### The invariant -/

/-- The cells of the sequences. -/
def cells (S : Seqs ι T) (i : ι) : Option (List (ListCell ι T)) := (S i).map (List.map .node)

/-- The lists are rings without common nodes. -/
def Inv (s : ListRun ι T) : Prop := s.links.PartialRings ListCell.head (cells s.seqs)

variable {s s' : ListRun ι T} {S : Seqs ι T} {i j : ι} {v cur : T} {l m : List T}

theorem mem_cells (h : l ∈ S i) : l.map .node ∈ cells S i := Option.mem_map_of_mem _ h

theorem node_mem_map : (ListCell.node v : ListCell ι T) ∈ l.map .node ↔ v ∈ l := by
  rw [List.mem_map_of_injective]
  exact fun _ _ h => ListCell.node.inj h

/-- A node that is not linked is in no ring. -/
theorem apart_node (hv : ¬ S.Holds v) : DLinks.Apart ListCell.head (cells S) (.node v) := by
  intro j m hm hmem
  obtain ⟨l, hl, rfl⟩ := Option.mem_map.mp hm
  rcases List.mem_cons.mp hmem with h | h
  · cases h
  · exact hv ⟨j, l, hl, node_mem_map.mp h⟩

theorem Inv.not_mem (h : s.Inv) (hij : i ≠ j) (hl : l ∈ s.seqs i) (hm : m ∈ s.seqs j)
    (hv : v ∈ l) : v ∉ m := by
  intro hvm
  refine h.apart i j hij _ (mem_cells hl) _ (mem_cells hm) (.node v) ?_ ?_
  · exact List.mem_cons_of_mem _ (node_mem_map.mpr hv)
  · exact List.mem_cons_of_mem _ (node_mem_map.mpr hvm)

theorem Inv.nodup (h : s.Inv) (hl : l ∈ s.seqs i) : l.Nodup :=
  ((List.nodup_cons.mp (h.ring i _ (mem_cells hl)).nodup).2).of_map _

/-- The list that a linked node is in, and the ones around it. -/
theorem Inv.exists_split (h : s.Inv) (hcur : s.seqs.Holds cur) :
    ∃ i l₁ l₂, l₁ ++ cur :: l₂ ∈ s.seqs i ∧ cur ∉ l₁ ∧
      l₁.map .node ++ ListCell.node cur :: l₂.map .node ∈ cells s.seqs i := by
  obtain ⟨i, l, hl, hmem⟩ := hcur
  obtain ⟨l₁, l₂, rfl⟩ := List.append_of_mem hmem
  refine ⟨i, l₁, l₂, hl, ?_, ?_⟩
  · have hnodup := List.nodup_append.mp (h.nodup hl)
    exact fun hmem => hnodup.2.2 cur hmem cur List.mem_cons_self rfl
  · have hcells := mem_cells hl
    rwa [List.map_append, List.map_cons] at hcells

theorem inv_new (L : DLinks (ListCell ι T)) : (new L).Inv :=
  ⟨fun _ _ h => (nomatch h), fun _ _ _ _ h => (nomatch h)⟩

/-- Other code writes to other memory. -/
theorem Inv.outside (h : s.Inv) {L : DLinks (ListCell ι T)}
    (hg : ∀ i, ∀ l ∈ s.seqs i, ∀ c ∈ ListCell.head i :: l.map .node,
      L.next c = s.links.next c ∧ L.prev c = s.links.prev c) : Inv ⟨L, s.seqs⟩ := by
  refine ⟨?_, h.apart⟩
  intro i m hm
  obtain ⟨l, hl, rfl⟩ := Option.mem_map.mp hm
  exact (h.ring i _ (mem_cells hl)).congr (hg i l hl)

variable [DecidableEq ι]

theorem cells_update (S : Seqs ι T) (i : ι) (l : List T) :
    cells (Function.update S i (some l)) = Function.update (cells S) i (some (l.map .node)) := by
  funext j
  unfold cells
  rcases eq_or_ne j i with rfl | hj
  · rw [Function.update_self, Function.update_self]
    rfl
  · rw [Function.update_of_ne hj, Function.update_of_ne hj]

/-- An operation on the sequence that holds `cur`, and only on that. -/
theorem Inv.map_eq_update (h : s.Inv) (hl : l ∈ s.seqs i) (hcur : cur ∈ l) {f : List T → List T}
    (hf : ∀ m, cur ∉ m → f m = m) :
    (fun j => (s.seqs j).map f) = Function.update s.seqs i (some (f l)) := by
  funext j
  rcases eq_or_ne j i with rfl | hj
  · rw [Function.update_self, hl]
    rfl
  · rw [Function.update_of_ne hj]
    rcases hm : s.seqs j with - | m
    · rfl
    · rw [Option.map_some, hf m (h.not_mem hj.symm hl hm hcur)]

/-! ### One step -/

variable [DecidableEq T]

theorem Inv.construct (h : s.Inv) (hg : s.seqs i = none) :
    Inv ⟨LinkedListType.construct s.links i, Function.update s.seqs i (some [])⟩ := by
  unfold Inv
  rw [cells_update]
  refine DLinks.PartialRings.init h ?_
  intro j m hm hmem
  obtain ⟨l, hl, rfl⟩ := Option.mem_map.mp hm
  rcases List.mem_cons.mp hmem with heq | hmem
  · obtain rfl := ListCell.head.inj heq
    rw [hg] at hl
    cases hl
  · obtain ⟨_, -, heq⟩ := List.mem_map.mp hmem
    cases heq

theorem Inv.add (h : s.Inv) (hg : s.seqs i ≠ none ∧ ¬ s.seqs.Holds v) :
    Inv ⟨LinkedListType.add s.links i v, s.seqs.pushFront i v⟩ := by
  obtain ⟨l, hl⟩ := Option.ne_none_iff_exists'.mp hg.1
  have hv := apart_node hg.2
  have hmem := mem_cells hl
  unfold Inv
  rw [Seqs.pushFront, hl, Option.map_some, cells_update]
  refine DLinks.PartialRings.add h hmem hv List.mem_cons_self ?_ (List.Perm.refl _)
  exact (h.ring i _ hmem).add (hv i _ hmem)

theorem Inv.addLast (h : s.Inv) (hg : s.seqs i ≠ none ∧ ¬ s.seqs.Holds v) :
    Inv ⟨LinkedListType.addLast s.links i v, s.seqs.pushBack i v⟩ := by
  obtain ⟨l, hl⟩ := Option.ne_none_iff_exists'.mp hg.1
  have hv := apart_node hg.2
  have hmem := mem_cells hl
  unfold Inv
  rw [Seqs.pushBack, hl, Option.map_some, cells_update, List.map_append]
  refine DLinks.PartialRings.addLast h hmem hv List.mem_cons_self ?_
    (List.perm_append_singleton _ _)
  exact (h.ring i _ hmem).addLast (hv i _ hmem)

theorem Inv.map_splice {l₁ l₂ : List T} (h : s.Inv) (hl : l₁ ++ cur :: l₂ ∈ s.seqs i)
    (hnot : cur ∉ l₁) (new : List T) :
    (fun j => (s.seqs j).map (splice cur new)) =
      Function.update s.seqs i (some (l₁ ++ (new ++ l₂))) := by
  rw [← splice_append new hnot]
  exact h.map_eq_update hl (by simp) fun m hm => splice_of_not_mem new hm

theorem Inv.addPrev (h : s.Inv) (hg : ¬ s.seqs.Holds v ∧ s.seqs.Holds cur) :
    Inv ⟨LinkedListType.addPrev s.links v cur, s.seqs.insertBefore v cur⟩ := by
  obtain ⟨i, l₁, l₂, hl, hnot, hmem⟩ := h.exists_split hg.2
  have hv := apart_node hg.1
  have hseqs : s.seqs.insertBefore v cur = Function.update s.seqs i (some (l₁ ++ v :: cur :: l₂)) :=
    h.map_splice hl hnot [v, cur]
  unfold Inv
  rw [hseqs, cells_update, List.map_append, List.map_cons, List.map_cons]
  refine DLinks.PartialRings.addLast h hmem hv (by simp) ?_ List.perm_middle
  exact (h.ring i _ hmem).addLast_at (hv i _ hmem)

theorem Inv.addNext (h : s.Inv) (hg : ¬ s.seqs.Holds v ∧ s.seqs.Holds cur) :
    Inv ⟨LinkedListType.addNext s.links v cur, s.seqs.insertAfter v cur⟩ := by
  obtain ⟨i, l₁, l₂, hl, hnot, hmem⟩ := h.exists_split hg.2
  have hv := apart_node hg.1
  have hseqs : s.seqs.insertAfter v cur = Function.update s.seqs i (some (l₁ ++ cur :: v :: l₂)) :=
    h.map_splice hl hnot [cur, v]
  unfold Inv
  rw [hseqs, cells_update, List.map_append, List.map_cons, List.map_cons]
  refine DLinks.PartialRings.add h hmem hv (by simp) ((h.ring i _ hmem).add_at (hv i _ hmem)) ?_
  exact ((List.Perm.swap _ _ _).append_left _).trans List.perm_middle

theorem Inv.remove (h : s.Inv) (hg : s.seqs.Holds v) :
    Inv ⟨LinkedListType.remove s.links v, s.seqs.delete v⟩ := by
  obtain ⟨i, l₁, l₂, hl, hnot, hmem⟩ := h.exists_split hg
  have herase : (l₁ ++ v :: l₂).erase v = l₁ ++ l₂ := by
    rw [List.erase_append_right _ hnot, List.erase_cons_head]
  have hseqs : s.seqs.delete v = Function.update s.seqs i (some (l₁ ++ l₂)) := by
    rw [← herase]
    exact h.map_eq_update hl (by simp) fun m hm => List.erase_of_not_mem hm
  unfold Inv
  rw [hseqs, cells_update, List.map_append]
  exact DLinks.PartialRings.remove h hmem

theorem Inv.step {e : ListEvent ι T} (h : s.Inv) (hg : s.Usable e) (hstep : s.step e = some s') :
    s'.Inv := by
  cases e with
  | construct i =>
    obtain rfl := Option.some.inj hstep
    exact h.construct hg
  | add i node =>
    obtain rfl := Option.some.inj hstep
    exact h.add hg
  | addLast i node =>
    obtain rfl := Option.some.inj hstep
    exact h.addLast hg
  | addPrev node cur =>
    obtain rfl := Option.some.inj hstep
    exact h.addPrev hg
  | addNext node cur =>
    obtain rfl := Option.some.inj hstep
    exact h.addNext hg
  | remove node =>
    obtain rfl := Option.some.inj hstep
    exact h.remove hg
  | outside L =>
    obtain rfl := Option.some.inj hstep
    exact h.outside hg

/-! ### All steps -/

/-- Rings without common nodes are walked through as sequences. -/
theorem Inv.refines (h : s.Inv) : s.Refines := by
  have hring : ∀ i, ∀ l ∈ s.seqs i, s.links.Ring (.head i) (l.map .node) :=
    fun i l hl => h.ring i _ (mem_cells hl)
  have hfirst : ∀ i, ∀ l ∈ s.seqs i, LinkedListType.first s.links i = l.head?.map .node := by
    intro i l hl
    rw [LinkedListType.first_eq (hring i l hl), List.head?_map]
  have hlast : ∀ i, ∀ l ∈ s.seqs i, LinkedListType.last s.links i = l.getLast?.map .node := by
    intro i l hl
    rw [LinkedListType.last_eq (hring i l hl), List.getLast?_map]
  refine ⟨?_, ?_, hfirst, hlast, ?_, ?_⟩
  · intro i l hl
    have hchain := (hring i l hl).chain_after
    rw [hchain.head_eq, List.head?_map, ← hfirst i l hl] at hchain
    exact hchain
  · intro i l hl
    have hchain := (hring i l hl).chain_before
    rw [hchain.head_eq, List.head?_reverse, List.getLast?_map, ← hlast i l hl,
      ← List.map_reverse] at hchain
    exact hchain
  · intro i l hl
    rw [LinkedListType.empty_eq (hring i l hl), List.isEmpty_map]
  · intro i j hij l hl m hm v hv
    exact h.not_mem hij hl hm hv

/-- **The circular lists refine sequences**, over every run of any number of
lists. -/
theorem always_refines (L : DLinks (ListCell ι T)) {es : List (ListEvent ι T)}
    (hg : Guarded step Usable (new L) es) : Always step Refines (new L) es :=
  Always.of_guarded (I := Inv) (fun _ _ _ h hg hstep => h.step hg hstep) (fun _ h => h.refines)
    (inv_new L) hg

/-- Two lists, with every operation, at the ends and in the middle; a node moves
from one list to the other, and one of the lists becomes empty. -/
theorem always_refines_two :
    Guarded step Usable (new (⟨id, id⟩ : DLinks (ListCell Bool ℕ)))
      [.construct false, .add false 1, .addLast false 2, .construct true, .addNext 3 1,
        .addPrev 4 3, .add true 5, .remove 3, .addLast true 3, .remove 5, .remove 3] ∧
    Always step Refines (new (⟨id, id⟩ : DLinks (ListCell Bool ℕ)))
      [.construct false, .add false 1, .addLast false 2, .construct true, .addNext 3 1,
        .addPrev 4 3, .add true 5, .remove 3, .addLast true 3, .remove 5, .remove 3] := by
  have hg : Guarded step Usable (new (⟨id, id⟩ : DLinks (ListCell Bool ℕ)))
      [.construct false, .add false 1, .addLast false 2, .construct true, .addNext 3 1,
        .addPrev 4 3, .add true 5, .remove 3, .addLast true 3, .remove 5, .remove 3] := by
    decide
  exact ⟨hg, always_refines _ hg⟩

end ListRun

end Xkim
