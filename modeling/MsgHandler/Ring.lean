/-
MsgHandler/Ring.lean

Intrusive circular doubly linked lists.  The nodes and the heads of the lists
are elements of one type, and their links are two functions `next` and `prev`.

`Linked L x l z` says that the links lead from `x` through exactly `l` to `z`
and back; a *ring* at `h` leads from `h` back to `h` without meeting a node
twice.  The three operations, insertion at either end and removal,

    next(h)->prev = v; v->next = next(h); v->prev = h; h->next = v;
    prev(h)->next = v; v->prev = prev(h); v->next = h; h->prev = v;
    next(v)->prev = prev(v); prev(v)->next = next(v);

are all made of one, `link`, which makes two nodes neighbours.  Since `link`
does not affect a path it is not on (`Linked.link_of_not_mem`), each of them
is a matter of cutting the ring in the right place.

A ring has no beginning: any node of it can be taken for the head
(`Ring.rotate`).  So insertion behind or before a node is insertion at one end
of the ring at that node.  And with `next` and `prev` exchanged it is the ring
of the reversed list, which gives the way back (`Ring.chain_before`).

Removal does not say which list the node is in, and neither does insertion next
to a node.  So a program with several lists needs more than one ring:
`PartialRings` is a family of rings without common nodes, of which some may not
have been made yet, and what is done to one of them leaves the others alone
(`PartialRings.replace`).  `Rings` is the same for a family that is there.
-/
import MsgHandler.Chain

namespace Xkim

variable {α : Type*}

/-- The links of all nodes. -/
structure DLinks (α : Type*) where
  next : α → α
  prev : α → α

namespace DLinks

/-! ### Operations -/

section Operations

variable [DecidableEq α] (L : DLinks α)

def setNext (x y : α) : DLinks α := { L with next := Function.update L.next x y }

def setPrev (x y : α) : DLinks α := { L with prev := Function.update L.prev x y }

/-- The constructor of a list: the head is its own neighbour. -/
def init (h : α) : DLinks α := (L.setPrev h h).setNext h h

/-- The first node, if there is one. -/
def first (h : α) : Option α := if L.next h = h then none else some (L.next h)

/-- Insert `v` behind the head. -/
def add (h v : α) : DLinks α :=
  let L := L.setPrev (L.next h) v
  let L := L.setNext v (L.next h)
  let L := L.setPrev v h
  L.setNext h v

/-- Insert `v` before the head. -/
def addLast (h v : α) : DLinks α :=
  let L := L.setNext (L.prev h) v
  let L := L.setPrev v (L.prev h)
  let L := L.setNext v h
  L.setPrev h v

/-- Take `v` out of the list it is in. -/
def remove (v : α) : DLinks α :=
  let L := L.setPrev (L.next v) (L.prev v)
  L.setNext (L.prev v) (L.next v)

/-- The node behind `c` in the list with the head `h`, if there is one. -/
def after (h c : α) : Option α := if L.next c = h then none else some (L.next c)

/-- The node before `c`. -/
def before (h c : α) : Option α := if L.prev c = h then none else some (L.prev c)

/-- Make `y` the neighbour behind `x`. -/
def link (x y : α) : DLinks α := (L.setPrev y x).setNext x y

theorem add_eq_link (h v : α) : L.add h v = (L.link v (L.next h)).link h v := rfl

theorem addLast_eq_link (h v : α) : L.addLast h v = (L.link (L.prev h) v).link v h := rfl

theorem remove_eq_link (v : α) : L.remove v = L.link (L.prev v) (L.next v) := by
  -- the first write may hit `prev(v)`, but only with the value it has
  have hkeep : Function.update L.prev (L.next v) (L.prev v) v = L.prev v := by
    by_cases hv : v = L.next v
    · rw [← hv, Function.update_self]
    · rw [Function.update_of_ne hv]
  show (L.setPrev (L.next v) (L.prev v)).setNext
    (Function.update L.prev (L.next v) (L.prev v) v) (L.next v) = _
  rw [hkeep]
  rfl

end Operations

/-! ### Paths -/

/-- The links lead from `x` through `l` to `z`, and back. -/
def Linked (L : DLinks α) : α → List α → α → Prop
  | x, [], z => L.next x = z ∧ L.prev z = x
  | x, y :: l, z => (L.next x = y ∧ L.prev y = x) ∧ Linked L y l z

variable {L : DLinks α} {x y z v : α} {l l₁ l₂ : List α}

theorem Linked.append (h₁ : L.Linked x l₁ y) (h₂ : L.Linked y l₂ z) :
    L.Linked x (l₁ ++ y :: l₂) z := by
  induction l₁ generalizing x with
  | nil => exact ⟨h₁, h₂⟩
  | cons a l₁ ih => exact ⟨h₁.1, ih h₁.2⟩

theorem Linked.split (h : L.Linked x (l₁ ++ y :: l₂) z) : L.Linked x l₁ y ∧ L.Linked y l₂ z := by
  induction l₁ generalizing x with
  | nil => exact h
  | cons a l₁ ih => exact ⟨⟨h.1, (ih h.2).1⟩, (ih h.2).2⟩

theorem Linked.next_eq (h : L.Linked x l z) : L.next x = l.headD z := by
  cases l with
  | nil => exact h.1
  | cons y l => exact h.1.1

theorem Linked.prev_mem (h : L.Linked x l z) : L.prev z ∈ x :: l := by
  induction l generalizing x with
  | nil => exact List.mem_singleton.mpr h.2
  | cons y l ih => exact List.mem_cons_of_mem x (ih h.2)

theorem Linked.congr {L' : DLinks α} (h : L.Linked x l z)
    (hnext : ∀ a ∈ x :: l, L'.next a = L.next a) (hprev : ∀ a ∈ l ++ [z], L'.prev a = L.prev a) :
    L'.Linked x l z := by
  induction l generalizing x with
  | nil => exact ⟨(hnext x List.mem_cons_self).trans h.1, (hprev z List.mem_cons_self).trans h.2⟩
  | cons y l ih =>
    refine ⟨⟨(hnext x List.mem_cons_self).trans h.1.1,
      (hprev y List.mem_cons_self).trans h.1.2⟩, ?_⟩
    exact ih h.2 (fun a ha => hnext a (List.mem_cons_of_mem _ ha))
      fun a ha => hprev a (List.mem_cons_of_mem _ ha)

/-- The links the other way round. -/
def reverse (L : DLinks α) : DLinks α := ⟨L.prev, L.next⟩

theorem Linked.reverse (h : L.Linked x l z) : L.reverse.Linked z l.reverse x := by
  induction l generalizing x with
  | nil => exact ⟨h.2, h.1⟩
  | cons y l ih =>
    rw [List.reverse_cons]
    exact (ih h.2).append ⟨h.1.2, h.1.1⟩

section Link

variable [DecidableEq α]

/-- Walking forward from `x` until `z`. -/
theorem Linked.chain_after (h : L.Linked x l z) (hz : z ∉ l) :
    Chain (L.after z) (L.after z x) l := by
  induction l generalizing x with
  | nil => exact if_pos h.1
  | cons y l ih =>
    obtain ⟨hzy, hzl⟩ := List.ne_and_not_mem_of_not_mem_cons hz
    obtain ⟨⟨hnext, -⟩, hrest⟩ := h
    refine ⟨?_, ih hrest hzl⟩
    rw [after, hnext, if_neg hzy.symm]

theorem linked_link (L : DLinks α) (x y : α) : (L.link x y).Linked x [] y := by
  show Function.update L.next x y x = y ∧ Function.update L.prev y x y = x
  exact ⟨Function.update_self .., Function.update_self ..⟩

/-- New neighbours do not affect a path they are not on. -/
theorem Linked.link_of_not_mem {a b : α} (h : L.Linked x l z) (ha : a ∉ x :: l)
    (hb : b ∉ l ++ [z]) : (L.link a b).Linked x l z := by
  induction l generalizing x with
  | nil =>
    have hxa : x ≠ a := fun e => ha (List.mem_singleton.mpr e.symm)
    have hzb : z ≠ b := fun e => hb (List.mem_singleton.mpr e.symm)
    exact ⟨(Function.update_of_ne hxa _ _).trans h.1, (Function.update_of_ne hzb _ _).trans h.2⟩
  | cons y l ih =>
    have hxa : x ≠ a := fun e => ha (e ▸ List.mem_cons_self)
    have hyb : y ≠ b := fun e => hb (e ▸ List.mem_cons_self)
    refine ⟨⟨(Function.update_of_ne hxa _ _).trans h.1.1,
      (Function.update_of_ne hyb _ _).trans h.1.2⟩, ?_⟩
    exact ih h.2 (fun hl => ha (List.mem_cons_of_mem _ hl))
      (fun hl => hb (List.mem_cons_of_mem _ hl))

/-- The end of a path is redirected. -/
theorem Linked.redirect {b : α} (h : L.Linked x l z) (hnd : (x :: l).Nodup) (hb : b ∉ l) :
    (L.link (L.prev z) b).Linked x l b := by
  rcases List.eq_nil_or_concat l with rfl | ⟨l, a, rfl⟩
  · rw [show L.prev z = x from h.2]
    exact linked_link L x b
  · rw [List.concat_eq_append] at h hnd hb ⊢
    obtain ⟨hfront, hlast⟩ := h.split
    rw [show L.prev z = a from hlast.2]
    have ha : a ∉ x :: l := by
      have hnd' := List.nodup_append.mp (show ((x :: l) ++ [a]).Nodup from hnd)
      intro hmem
      exact hnd'.2.2 a hmem a (List.mem_singleton_self a) rfl
    exact (hfront.link_of_not_mem ha hb).append (linked_link L a b)

/-! ### Rings -/

/-- The list with the head `h` holds the nodes `l`, in order. -/
structure Ring (L : DLinks α) (h : α) (l : List α) : Prop where
  linked : L.Linked h l h
  nodup : (h :: l).Nodup

variable {h : α}

theorem ring_init (L : DLinks α) (h : α) : (L.init h).Ring h [] :=
  ⟨linked_link L h h, List.nodup_singleton h⟩

theorem Ring.first_eq (hr : L.Ring h l) : L.first h = l.head? := by
  unfold first
  rw [hr.linked.next_eq]
  cases l with
  | nil => simp
  | cons y l =>
    have hne : y ≠ h := by
      rintro rfl
      exact (List.nodup_cons.mp hr.nodup).1 List.mem_cons_self
    rw [List.headD_cons, if_neg hne]
    rfl

/-- **The way forward** visits exactly the nodes of the list, and ends. -/
theorem Ring.chain_after (hr : L.Ring h l) : Chain (L.after h) (L.after h h) l :=
  hr.linked.chain_after (List.nodup_cons.mp hr.nodup).1

omit [DecidableEq α] in
theorem Ring.reverse (hr : L.Ring h l) : L.reverse.Ring h l.reverse := by
  refine ⟨hr.linked.reverse, ?_⟩
  exact ((List.reverse_perm l).cons h).nodup_iff.mpr hr.nodup

/-- **The way back** visits them in the opposite order. -/
theorem Ring.chain_before (hr : L.Ring h l) : Chain (L.before h) (L.before h h) l.reverse :=
  hr.reverse.chain_after

omit [DecidableEq α] in
/-- The links of other nodes do not matter. -/
theorem Ring.congr {L' : DLinks α} (hr : L.Ring h l)
    (heq : ∀ c ∈ h :: l, L'.next c = L.next c ∧ L'.prev c = L.prev c) : L'.Ring h l := by
  refine ⟨hr.linked.congr (fun c hc => (heq c hc).1) ?_, hr.nodup⟩
  intro c hc
  refine (heq c ?_).2
  rcases List.mem_append.mp hc with hc | hc
  · exact List.mem_cons_of_mem h hc
  · exact List.mem_cons.mpr (Or.inl (List.mem_singleton.mp hc))

omit [DecidableEq α] in
theorem rotate_perm (h c : α) (l₁ l₂ : List α) :
    (c :: (l₂ ++ h :: l₁)).Perm (h :: (l₁ ++ c :: l₂)) := by
  show ((c :: l₂) ++ (h :: l₁)).Perm ((h :: l₁) ++ (c :: l₂))
  exact List.perm_append_comm

omit [DecidableEq α] in
/-- **Every node of a ring is a head of it.** -/
theorem Ring.rotate {c : α} (hr : L.Ring h (l₁ ++ c :: l₂)) : L.Ring c (l₂ ++ h :: l₁) := by
  obtain ⟨hfront, hback⟩ := hr.linked.split
  exact ⟨hback.append hfront, (rotate_perm h c l₁ l₂).nodup_iff.mpr hr.nodup⟩

omit [DecidableEq α] in
theorem Ring.exists_ring {c : α} (hr : L.Ring h l) (hc : c ∈ h :: l) :
    ∃ l', L.Ring c l' ∧ (c :: l').Perm (h :: l) := by
  rcases List.mem_cons.mp hc with rfl | hc
  · exact ⟨l, hr, List.Perm.refl _⟩
  · obtain ⟨l₁, l₂, rfl⟩ := List.append_of_mem hc
    exact ⟨_, hr.rotate, rotate_perm h c l₁ l₂⟩

omit [DecidableEq α] in
theorem Ring.next_mem {c : α} (hr : L.Ring h l) (hc : c ∈ h :: l) : L.next c ∈ h :: l := by
  obtain ⟨l', hr', hperm⟩ := hr.exists_ring hc
  rw [← hperm.mem_iff, hr'.linked.next_eq]
  cases l' <;> simp

omit [DecidableEq α] in
theorem Ring.prev_mem {c : α} (hr : L.Ring h l) (hc : c ∈ h :: l) : L.prev c ∈ h :: l := by
  obtain ⟨l', hr', hperm⟩ := hr.exists_ring hc
  rw [← hperm.mem_iff]
  exact hr'.linked.prev_mem

/-- New neighbours outside the ring. -/
theorem Ring.link_of_not_mem {a b : α} (hr : L.Ring h l) (ha : a ∉ h :: l) (hb : b ∉ h :: l) :
    (L.link a b).Ring h l := by
  refine ⟨hr.linked.link_of_not_mem ha ?_, hr.nodup⟩
  intro hmem
  rcases List.mem_append.mp hmem with hmem | hmem
  · exact hb (List.mem_cons_of_mem h hmem)
  · exact hb (List.mem_cons.mpr (Or.inl (List.mem_singleton.mp hmem)))

theorem Ring.add (hr : L.Ring h l) (hv : v ∉ h :: l) : (L.add h v).Ring h (v :: l) := by
  obtain ⟨hvh, hvl⟩ := List.ne_and_not_mem_of_not_mem_cons hv
  obtain ⟨hhl, hnd⟩ := List.nodup_cons.mp hr.nodup
  rw [add_eq_link, hr.linked.next_eq]
  refine ⟨?_, ?_⟩
  · refine (linked_link _ h v).append ?_
    cases l with
    | nil =>
      refine (linked_link L v h).link_of_not_mem ?_ ?_
      · simpa using hvh.symm
      · simpa using hvh
    | cons y l =>
      obtain ⟨hyl, -⟩ := List.nodup_cons.mp hnd
      have hyh : y ≠ h := fun e => hhl (e ▸ List.mem_cons_self)
      -- what follows the first node is not touched
      have hrest : (L.link v y).Linked y l h := by
        refine hr.linked.2.link_of_not_mem hvl ?_
        simpa using ⟨hyl, hyh⟩
      have hall : (L.link v y).Linked v (y :: l) h := ⟨linked_link L v y, hrest⟩
      refine hall.link_of_not_mem ?_ ?_
      · simpa using ⟨hvh.symm, by simpa using hhl⟩
      · simp only [List.mem_append, List.mem_singleton, not_or]
        exact ⟨hvl, hvh⟩
  · refine List.nodup_cons.mpr ⟨?_, List.nodup_cons.mpr ⟨hvl, hnd⟩⟩
    simpa using ⟨hvh.symm, hhl⟩

theorem Ring.addLast (hr : L.Ring h l) (hv : v ∉ h :: l) :
    (L.addLast h v).Ring h (l ++ [v]) := by
  obtain ⟨hvh, hvl⟩ := List.ne_and_not_mem_of_not_mem_cons hv
  obtain ⟨hhl, hnd⟩ := List.nodup_cons.mp hr.nodup
  rw [addLast_eq_link]
  refine ⟨?_, ?_⟩
  · have hfront := hr.linked.redirect hr.nodup hvl
    refine (hfront.link_of_not_mem hv ?_).append (linked_link _ v h)
    simpa using ⟨hhl, hvh.symm⟩
  · show ((h :: l) ++ [v]).Nodup
    refine List.nodup_append.mpr ⟨hr.nodup, List.nodup_singleton v, ?_⟩
    intro a ha b hb hab
    rw [List.mem_singleton] at hb
    exact hv (hb ▸ hab ▸ ha)

theorem Ring.remove (hr : L.Ring h (l₁ ++ v :: l₂)) : (L.remove v).Ring h (l₁ ++ l₂) := by
  obtain ⟨hfront, hback⟩ := hr.linked.split
  have hnd : ((h :: l₁) ++ v :: l₂).Nodup := hr.nodup
  obtain ⟨hnd₁, hnd₂, hapart⟩ := List.nodup_append.mp hnd
  have hprev := hfront.prev_mem
  rw [remove_eq_link, hback.next_eq]
  refine ⟨?_, hnd.sublist ?_⟩
  · cases l₂ with
    | nil =>
      rw [List.append_nil]
      exact hfront.redirect hnd₁ (List.nodup_cons.mp hnd₁).1
    | cons b l₂ =>
      have hbl : b ∉ h :: l₁ := fun hmem => hapart b hmem b (by simp) rfl
      obtain ⟨hbl₂, -⟩ := List.nodup_cons.mp (List.nodup_cons.mp hnd₂).2
      refine (hfront.redirect hnd₁ fun hmem => hbl (List.mem_cons_of_mem h hmem)).append ?_
      refine hback.2.link_of_not_mem ?_ ?_
      · intro hmem
        exact hapart _ hprev _ (List.mem_cons_of_mem v hmem) rfl
      · have hbh : b ≠ h := fun e => hbl (e ▸ List.mem_cons_self)
        simpa using ⟨hbl₂, hbh⟩
  · exact (List.sublist_cons_self v l₂).append_left (h :: l₁)

/-- Insertion behind a node of the ring, -/
theorem Ring.add_at {c : α} (hr : L.Ring h (l₁ ++ c :: l₂)) (hv : v ∉ h :: (l₁ ++ c :: l₂)) :
    (L.add c v).Ring h (l₁ ++ c :: v :: l₂) := by
  rw [← (rotate_perm h c l₁ l₂).mem_iff] at hv
  have hring : (L.add c v).Ring c ((v :: l₂) ++ h :: l₁) := hr.rotate.add hv
  exact hring.rotate

/-- and before it. -/
theorem Ring.addLast_at {c : α} (hr : L.Ring h (l₁ ++ c :: l₂)) (hv : v ∉ h :: (l₁ ++ c :: l₂)) :
    (L.addLast c v).Ring h (l₁ ++ v :: c :: l₂) := by
  rw [← (rotate_perm h c l₁ l₂).mem_iff] at hv
  have hring : (L.addLast c v).Ring c (l₂ ++ h :: (l₁ ++ [v])) := by
    rw [← List.cons_append, ← List.append_assoc]
    exact hr.rotate.addLast hv
  rw [List.append_cons]
  exact hring.rotate

/-! ### Several rings -/

variable {ι : Type*}

/-- A family of rings without common nodes, some of which may not be there. -/
structure PartialRings (L : DLinks α) (head : ι → α) (ls : ι → Option (List α)) : Prop where
  ring : ∀ i, ∀ l ∈ ls i, L.Ring (head i) l
  apart : ∀ i j, i ≠ j → ∀ l ∈ ls i, ∀ l' ∈ ls j, ∀ a ∈ head i :: l, a ∉ head j :: l'

/-- The node `v` is in none of them. -/
def Apart (head : ι → α) (ls : ι → Option (List α)) (v : α) : Prop :=
  ∀ i, ∀ l ∈ ls i, v ∉ head i :: l

section PartialRings

variable [DecidableEq ι] {head : ι → α} {ls : ι → Option (List α)} {i : ι} {l' : List α} {c : α}

omit [DecidableEq α] in
/-- **One of the rings is replaced** by one that has no node of another. -/
theorem PartialRings.replace {L' : DLinks α} (hr : L.PartialRings head ls)
    (hring : L'.Ring (head i) l') (hothers : ∀ j ≠ i, ∀ l ∈ ls j, L'.Ring (head j) l)
    (hnew : ∀ j ≠ i, ∀ l ∈ ls j, ∀ a ∈ head i :: l', a ∉ head j :: l) :
    L'.PartialRings head (Function.update ls i (some l')) := by
  refine ⟨?_, ?_⟩
  · intro j l hl
    rcases eq_or_ne j i with rfl | hj
    · rw [Function.update_self] at hl
      obtain rfl := Option.some.inj hl
      exact hring
    · rw [Function.update_of_ne hj] at hl
      exact hothers j hj l hl
  · -- at most one of the two rings is the new one
    intro j k hjk l hl m hm a ha
    rcases eq_or_ne j i with rfl | hj
    · rw [Function.update_self] at hl
      obtain rfl := Option.some.inj hl
      rw [Function.update_of_ne hjk.symm] at hm
      exact hnew k hjk.symm m hm a ha
    · rw [Function.update_of_ne hj] at hl
      rcases eq_or_ne k i with rfl | hk
      · rw [Function.update_self] at hm
        obtain rfl := Option.some.inj hm
        exact fun ham => hnew j hj l hl a ham ha
      · rw [Function.update_of_ne hk] at hm
        exact hr.apart j k hjk l hl m hm a ha

omit [DecidableEq α] [DecidableEq ι] in
/-- Nodes of a ring and new ones are in no other ring. -/
theorem PartialRings.apart_of_mem (hr : L.PartialRings head ls) (hi : l ∈ ls i)
    (hl' : ∀ a ∈ l', a ∈ head i :: l ∨ Apart head ls a) :
    ∀ j ≠ i, ∀ m ∈ ls j, ∀ a ∈ head i :: l', a ∉ head j :: m := by
  intro j hj m hm a ha
  rcases List.mem_cons.mp ha with rfl | ha
  · exact hr.apart i j hj.symm l hi m hm _ List.mem_cons_self
  · rcases hl' a ha with hmem | hnew
    · exact hr.apart i j hj.symm l hi m hm a hmem
    · exact hnew j m hm

omit [DecidableEq α] [DecidableEq ι] in
theorem PartialRings.apart_of_perm (hr : L.PartialRings head ls) (hi : l ∈ ls i)
    (hv : Apart head ls v) (hperm : l'.Perm (v :: l)) :
    ∀ j ≠ i, ∀ m ∈ ls j, ∀ a ∈ head i :: l', a ∉ head j :: m := by
  refine hr.apart_of_mem hi ?_
  intro a ha
  rcases List.mem_cons.mp (hperm.mem_iff.mp ha) with rfl | ha
  · exact Or.inr hv
  · exact Or.inl (List.mem_cons_of_mem _ ha)

/-- A new ring. -/
theorem PartialRings.init (hr : L.PartialRings head ls) (hi : Apart head ls (head i)) :
    (L.init (head i)).PartialRings head (Function.update ls i (some [])) := by
  refine hr.replace (ring_init L (head i)) ?_ ?_
  · intro j _ l hl
    exact (hr.ring j l hl).link_of_not_mem (hi j l hl) (hi j l hl)
  · intro j _ l hl a ha
    rw [List.mem_singleton.mp ha]
    exact hi j l hl

/-- **Insertion behind `c`**, which is the head or a node of one of the rings,
keeps the others. -/
theorem PartialRings.add (hr : L.PartialRings head ls) (hi : l ∈ ls i) (hv : Apart head ls v)
    (hc : c ∈ head i :: l) (hring : (L.add c v).Ring (head i) l')
    (hperm : l'.Perm (v :: l)) :
    (L.add c v).PartialRings head (Function.update ls i (some l')) := by
  refine hr.replace hring ?_ (hr.apart_of_perm hi hv hperm)
  intro j hj m hm
  have hapart := hr.apart i j hj.symm l hi m hm
  have hnext := (hr.ring i l hi).next_mem hc
  rw [add_eq_link]
  refine Ring.link_of_not_mem ?_ (hapart c hc) (hv j m hm)
  exact (hr.ring j m hm).link_of_not_mem (hv j m hm) (hapart _ hnext)

/-- **Insertion before `c`**. -/
theorem PartialRings.addLast (hr : L.PartialRings head ls) (hi : l ∈ ls i) (hv : Apart head ls v)
    (hc : c ∈ head i :: l) (hring : (L.addLast c v).Ring (head i) l')
    (hperm : l'.Perm (v :: l)) :
    (L.addLast c v).PartialRings head (Function.update ls i (some l')) := by
  refine hr.replace hring ?_ (hr.apart_of_perm hi hv hperm)
  intro j hj m hm
  have hapart := hr.apart i j hj.symm l hi m hm
  have hprev := (hr.ring i l hi).prev_mem hc
  rw [addLast_eq_link]
  refine Ring.link_of_not_mem ?_ (hv j m hm) (hapart c hc)
  exact (hr.ring j m hm).link_of_not_mem (hapart _ hprev) (hv j m hm)

/-- **Removal** from whichever ring holds the node. -/
theorem PartialRings.remove (hr : L.PartialRings head ls) (hi : l₁ ++ v :: l₂ ∈ ls i) :
    (L.remove v).PartialRings head (Function.update ls i (some (l₁ ++ l₂))) := by
  have hring := hr.ring i _ hi
  have hv : v ∈ head i :: (l₁ ++ v :: l₂) := by simp
  refine hr.replace hring.remove ?_ (hr.apart_of_mem hi ?_)
  · intro j hj m hm
    have hapart := hr.apart i j hj.symm _ hi m hm
    rw [remove_eq_link]
    exact (hr.ring j m hm).link_of_not_mem (hapart _ (hring.prev_mem hv))
      (hapart _ (hring.next_mem hv))
  · intro a ha
    refine Or.inl (List.mem_cons_of_mem _ ?_)
    exact ((List.sublist_cons_self v l₂).append_left l₁).subset ha

omit [DecidableEq α] in
/-- It is in none of them then. -/
theorem PartialRings.apart_removed (hr : L.PartialRings head ls) (hi : l₁ ++ v :: l₂ ∈ ls i) :
    Apart head (Function.update ls i (some (l₁ ++ l₂))) v := by
  intro j m hm
  rcases eq_or_ne j i with rfl | hj
  · rw [Function.update_self] at hm
    obtain rfl := Option.some.inj hm
    have hnd : ((head j :: l₁) ++ v :: l₂).Nodup := (hr.ring j _ hi).nodup
    exact (List.nodup_cons.mp (List.nodup_middle.mp hnd)).1
  · rw [Function.update_of_ne hj] at hm
    exact hr.apart i j hj.symm _ hi m hm v (by simp)

end PartialRings

/-- A family of rings without common nodes. -/
structure Rings {ι : Type*} (L : DLinks α) (head : ι → α) (l : ι → List α) : Prop where
  ring : ∀ i, L.Ring (head i) (l i)
  apart : ∀ i j, i ≠ j → ∀ a ∈ head i :: l i, a ∉ head j :: l j

variable [DecidableEq ι] {head : ι → α} {m : ι → List α}

omit [DecidableEq α] [DecidableEq ι] in
theorem rings_iff_partialRings :
    L.Rings head m ↔ L.PartialRings head fun i => some (m i) := by
  refine ⟨fun hr => ⟨?_, ?_⟩, fun hr => ⟨fun i => hr.ring i _ rfl, ?_⟩⟩
  · intro i l hl
    obtain rfl := Option.some.inj hl
    exact hr.ring i
  · intro i j hij l hl l' hl'
    obtain rfl := Option.some.inj hl
    obtain rfl := Option.some.inj hl'
    exact hr.apart i j hij
  · exact fun i j hij => hr.apart i j hij _ rfl _ rfl

omit [DecidableEq α] [DecidableEq ι] in
/-- The rings hold the same nodes, member by member of the family. -/
theorem Rings.congr {m' : ι → List α} (hr : L.Rings head m) (heq : ∀ i, m' i = m i) :
    L.Rings head m' := by
  rw [funext heq]
  exact hr

omit [DecidableEq α] [DecidableEq ι] in
theorem apart_iff : Apart head (fun i => some (m i)) v ↔ ∀ j, v ∉ head j :: m j := by
  refine ⟨fun h j => h j _ rfl, ?_⟩
  intro h j l hl
  obtain rfl := Option.some.inj hl
  exact h j

omit [DecidableEq α] in
theorem update_some (m : ι → List α) (i : ι) (l : List α) :
    Function.update (fun i => some (m i)) i (some l) = fun j => some (Function.update m i l j) :=
  (Function.comp_update some m i l).symm

theorem Rings.add (hr : L.Rings head m) (hv : ∀ j, v ∉ head j :: m j) (i : ι) :
    (L.add (head i) v).Rings head (Function.update m i (v :: m i)) := by
  rw [rings_iff_partialRings] at hr ⊢
  rw [← update_some]
  exact hr.add rfl (apart_iff.mpr hv) List.mem_cons_self ((hr.ring i _ rfl).add (hv i))
    (List.Perm.refl _)

theorem Rings.addLast (hr : L.Rings head m) (hv : ∀ j, v ∉ head j :: m j) (i : ι) :
    (L.addLast (head i) v).Rings head (Function.update m i (m i ++ [v])) := by
  rw [rings_iff_partialRings] at hr ⊢
  rw [← update_some]
  exact hr.addLast rfl (apart_iff.mpr hv) List.mem_cons_self ((hr.ring i _ rfl).addLast (hv i))
    (List.perm_append_singleton _ _)

/-- The first node of a ring is removed; it is in no ring then. -/
theorem Rings.remove (hr : L.Rings head m) {i : ι} (hi : m i = v :: l) :
    (L.remove v).Rings head (Function.update m i l) ∧
      ∀ j, v ∉ head j :: Function.update m i l j := by
  rw [rings_iff_partialRings] at hr
  have hmem : [] ++ v :: l ∈ some (m i) := by rw [hi]; rfl
  rw [rings_iff_partialRings, ← apart_iff, ← update_some]
  exact ⟨hr.remove hmem, hr.apart_removed hmem⟩

end Link

end DLinks

end Xkim
