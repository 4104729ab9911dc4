/-
MsgHandler/PushList.lean

The push list of a connection over whole runs (`framework/io/io_push_list.h`).

Every operation keeps two chains by hand, that of the push data and that of
their messages (`Heap.lean`).  A run is a sequence of calls on one list, and
between them other code may write to all of the memory that is not linked into
the list.  The list stays the one the calls make of it (`PushRun.linked`), and
`stealMsg` begins a chain of exactly its messages.
-/
import MsgHandler.Heap
import MsgHandler.Run

namespace Xkim

namespace IoPushList

/-- `getAll()`: the whole list, with its links. -/
def getAll (L : IoPushList) : Option Addr × IoPushList := (L.links.head, empty)

variable {L : IoPushList} {H : Heap} {ds : List Addr} {d : Addr}

/-- **`get` clears both links** of what it returns. -/
theorem Rep.get_cleared (h : L.Rep H (d :: ds)) :
    (L.get H).2.2.pdNext d = none ∧ (L.get H).2.2.next (msgOf H d) = none := by
  have hhead : L.links.head = some d := h.links.head_eq
  simp only [IoPushList.get, hhead]
  exact ⟨Function.update_self _ _ _, Function.update_self _ _ _⟩

end IoPushList

/-- A call on the list, or other code that leaves the memory as `H`. -/
inductive PushCall
  | put (d : Addr)
  | putFirst (d : Addr)
  | get
  | getAll
  | clear
  | shallowClear
  | other (H : Heap)

/-- The list and the memory, and the push data that the calls have linked. -/
structure PushRun where
  list : IoPushList
  heap : Heap
  linked : List Addr

namespace PushRun

open IoPushList (msgOf)

/-- One call. -/
def step (s : PushRun) : PushCall → Option PushRun
  | .put d =>
    let r := s.list.put d s.heap
    some ⟨r.1, r.2, s.linked ++ [d]⟩
  | .putFirst d =>
    let r := s.list.putFirst d s.heap
    some ⟨r.1, r.2, d :: s.linked⟩
  | .get =>
    let r := s.list.get s.heap
    some ⟨r.2.1, r.2.2, s.linked.tail⟩
  | .getAll => some ⟨s.list.getAll.2, s.heap, []⟩
  | .clear =>
    let r := s.list.clear s.heap
    some ⟨r.1, r.2, []⟩
  | .shallowClear =>
    let r := s.list.shallowClear s.heap
    some ⟨r.1, r.2, []⟩
  | .other H => some { s with heap := H }

/-- `d` is allocated, and neither it nor its message is linked. -/
def Free (s : PushRun) (d : Addr) : Prop :=
  d < s.heap.pdBrk ∧ d ∉ s.linked ∧ msgOf s.heap d ∉ s.linked.map (msgOf s.heap)

/-- What is put is free, the number of push data fits into an `int`, and other code
does not write what is linked. -/
def Proper (s : PushRun) : PushCall → Prop
  | .put d | .putFirst d => s.Free d ∧ s.linked.length < INT_MAX
  | .other H => s.heap.pdBrk ≤ H.pdBrk ∧ ∀ d ∈ s.linked, H.pdNext d = s.heap.pdNext d ∧
      msgOf H d = msgOf s.heap d ∧ H.next (msgOf s.heap d) = s.heap.next (msgOf s.heap d)
  | _ => True

/-- **List and chain are in step**: the size, the last element, the push data
and the messages one after the other, and what `get` would return. -/
structure InStep (s : PushRun) : Prop where
  size : s.list.listSize = s.linked.length
  tail : s.list.links.tail = s.linked.getLast?
  tail_null : s.list.links.tail = none ↔ s.linked = []
  data : Chain s.heap.pdNext s.list.links.head s.linked
  msgs : Chain s.heap.next (s.list.stealMsg s.heap) (s.linked.map (msgOf s.heap))
  first : (s.list.get s.heap).1 = s.linked.head?
  cleared : ∀ d ∈ s.linked.head?, (s.list.get s.heap).2.2.pdNext d = none ∧
    (s.list.get s.heap).2.2.next (msgOf s.heap d) = none

/-- The invariant. -/
def Holds (s : PushRun) : Prop := s.list.Rep s.heap s.linked

variable {s s' : PushRun} {c : PushCall}

theorem Holds.inStep (h : s.Holds) : s.InStep := by
  refine ⟨h.size, h.links.2, ?_, h.links.1, ?_, ?_, ?_⟩
  · rw [h.links.2, List.getLast?_eq_none_iff]
  · rw [h.stealMsg_eq]
    exact h.msgs
  · rcases hlinked : s.linked with - | ⟨d, ds⟩
    · unfold Holds at h
      rw [hlinked] at h
      rw [h.get_nil]
      rfl
    · unfold Holds at h
      rw [hlinked] at h
      exact h.get.1
  · intro d hd
    obtain ⟨ds, hds⟩ := List.head?_eq_some_iff.mp hd
    unfold Holds at h
    rw [hds] at h
    exact h.get_cleared

/-- **A step** keeps the list. -/
theorem Holds.step (h : s.Holds) (hc : s.Proper c) (hstep : s.step c = some s') : s'.Holds := by
  cases c with
  | put d =>
    obtain rfl := Option.some.inj hstep
    exact IoPushList.Rep.put h hc.1.2.1 hc.1.2.2 hc.1.1
  | putFirst d =>
    obtain rfl := Option.some.inj hstep
    exact IoPushList.Rep.putFirst h hc.1.2.1 hc.1.2.2 hc.1.1
  | get =>
    obtain rfl := Option.some.inj hstep
    unfold Holds at h ⊢
    rcases hlinked : s.linked with - | ⟨d, ds⟩
    · rw [hlinked] at h
      dsimp only
      rw [h.get_nil]
      exact h
    · rw [hlinked] at h
      exact h.get.2
  | getAll | clear | shallowClear =>
    obtain rfl := Option.some.inj hstep
    exact IoPushList.rep_empty
  | other H =>
    obtain rfl := Option.some.inj hstep
    exact IoPushList.Rep.congr h (fun d hd => (hc.2 d hd).1) (fun d hd => (hc.2 d hd).2.1)
      (fun d hd => (hc.2 d hd).2.2) hc.1

/-- **Push list and message chain stay in step** over every run from a new
list, in any memory. -/
theorem always_inStep (H : Heap) (calls : List PushCall)
    (hproper : Guarded PushRun.step Proper ⟨IoPushList.empty, H, []⟩ calls) :
    Always PushRun.step InStep ⟨IoPushList.empty, H, []⟩ calls :=
  Always.of_guarded (I := Holds) (fun _ _ _ h hc hstep => h.step hc hstep)
    (fun _ h => h.inStep) IoPushList.rep_empty hproper

/-- Two push data with messages of their own, put at the two ends, and one taken
out again. -/
theorem always_inStep_ends :
    Always PushRun.step InStep
      ⟨IoPushList.empty, { Heap.empty with pd := fun d => ⟨d, 0, 0⟩, pdBrk := 2 }, []⟩
      [.put 0, .putFirst 1, .get] := by
  refine always_inStep _ _ ?_
  rintro _ ⟨⟩
  refine ⟨⟨⟨by decide, by decide, by decide⟩, by decide⟩, ?_⟩
  rintro _ ⟨⟩
  refine ⟨⟨⟨by decide, by decide, by decide⟩, by decide⟩, ?_⟩
  rintro _ ⟨⟩
  exact ⟨trivial, trivial⟩

end PushRun

end Xkim
