/-
MsgHandler/BlockQueue.lean

The queue between the threads: `MsMessageBlockQueue`
(`framework/ms/ms_message_block_queue.cpp`).  The auth workers, the workers of
the broker, the routers and the collector all take their messages from one.

The queue is two pointers and a count over messages that are linked through
their own `_next` fields.  `put` appends one message and `putList` a whole
chain, whose end it looks for; `get()` takes everything, and `get(count)` cuts
the chain behind the message that it reaches after `count - 1` links.

`BlockRun` puts next to the queue the list it stands for, and `always_asList`
says that the two agree in every state of every run.  The links are shared with
everybody who holds a message, so this rests on what the callers promise
(`Owned`): who puts a message into a queue does not have it in the queue
already, and leaves its link alone until somebody takes it out.  The number of
messages has to fit into an `int`.
-/
import MsgHandler.Run
import MsgHandler.Workers

namespace Xkim

/-- The queue, the memory, and the list that the queue stands for. -/
structure BlockRun where
  queue : MsMessageBlockQueue
  heap : Heap
  contents : List Addr

/-- A call on the queue, or a change of the memory by another thread. -/
inductive BlockEvent
  | put (v : Addr)
  | putList (v : Addr)
  | get
  | getCount (count : ℕ)
  | outside (H : Heap)

namespace BlockRun

open MsMessageBlockQueue

/-- A new queue. -/
def new (H : Heap) : BlockRun := ⟨.empty, H, []⟩

/-- One event; the two versions of `get` wait on an empty queue. -/
def step (s : BlockRun) : BlockEvent → Option BlockRun
  | .put v =>
    let r := s.queue.put v s.heap
    some ⟨r.1, r.2, s.contents ++ [v]⟩
  | .putList v =>
    let r := s.queue.putList v s.heap
    some ⟨r.1, r.2, s.contents ++ s.heap.chainFrom v⟩
  | .get => s.queue.get.map fun r => ⟨r.2, s.heap, []⟩
  | .getCount count =>
    (s.queue.getCount count s.heap).map fun r => ⟨r.2.1, r.2.2, s.contents.drop count⟩
  | .outside H => some { s with heap := H }

/-- What the callers promise: a message that is put is not in the queue, and
neither is any of a list, which consists of allocated messages and ends; the
messages can be counted; a count is positive; and nobody writes the link of a
message in the queue. -/
def Owned (s : BlockRun) : BlockEvent → Prop
  | .put v => v ∉ s.contents ∧ s.contents.length < INT_MAX
  | .putList v =>
    Chain s.heap.next (some v) (s.heap.chainFrom v) ∧
      (∀ a ∈ s.heap.chainFrom v, a < s.heap.brk ∧ a ∉ s.contents) ∧
      s.contents.length + (s.heap.chainFrom v).length ≤ INT_MAX
  | .get => True
  | .getCount count => 1 ≤ count
  | .outside H => ∀ a ∈ s.contents, H.next a = s.heap.next a

instance (s : BlockRun) (e : BlockEvent) : Decidable (s.Owned e) :=
  match e with
  | .put _ => inferInstanceAs (Decidable (_ ∉ _ ∧ _))
  | .putList _ => inferInstanceAs (Decidable (_ ∧ (∀ a ∈ _, _) ∧ _))
  | .get => isTrue trivial
  | .getCount _ => inferInstanceAs (Decidable (_ ≤ _))
  | .outside _ => inferInstanceAs (Decidable (∀ a ∈ _, _))

/-- **The queue is its list.**  The links from `_list` visit exactly the messages
of the list and end, `_tail` is the last one and NULL if there is none, and
`_list_size` is their number (`rep`).  Calls on an empty queue wait; otherwise
`get()` returns the chain of all messages and leaves the queue empty, and
`get(count)` returns the chain of the first ones and leaves the others. -/
structure AsList (s : BlockRun) : Prop where
  rep : s.queue.Rep s.heap s.contents
  tail : s.queue.links.tail = none ↔ s.contents = []
  waits : s.contents = [] → s.queue.get = none ∧ ∀ count, s.queue.getCount count s.heap = none
  get : s.contents ≠ [] → ∃ v, s.queue.get = some (v, .empty) ∧
    Chain s.heap.next (some v) s.contents
  getCount : s.contents ≠ [] → ∀ count ≥ 1, ∃ v Q H,
    s.queue.getCount count s.heap = some (v, Q, H) ∧
      Chain H.next (some v) (s.contents.take count) ∧ Q.Rep H (s.contents.drop count)

variable {s s' : BlockRun} {e : BlockEvent}

/-- All of it follows from the links and the count. -/
theorem asList_of_rep (h : s.queue.Rep s.heap s.contents) : s.AsList where
  rep := h
  tail := by rw [h.1.2, List.getLast?_eq_none_iff]
  waits hnil := by
    rw [hnil] at h
    exact ⟨h.get_nil, h.getCount_nil⟩
  get := h.get
  getCount hne count hpos := by
    obtain ⟨v, Q, next', hcall, htaken, hleft⟩ := h.getCount hne hpos
    exact ⟨v, Q, _, hcall, htaken, hleft⟩

/-- One event keeps the queue and the list together. -/
theorem step_rep (h : s.queue.Rep s.heap s.contents) (hg : s.Owned e)
    (hstep : step s e = some s') : s'.queue.Rep s'.heap s'.contents := by
  cases e with
  | put v =>
    obtain rfl := Option.some.inj hstep
    exact h.put hg.1
  | putList v =>
    obtain rfl := Option.some.inj hstep
    obtain ⟨hchain, hfresh, -⟩ := hg
    show (s.queue.putList v s.heap).1.Rep _ (s.contents ++ s.heap.chainFrom v)
    -- the list is not empty, since it starts with `v`
    obtain ⟨l, hl⟩ : ∃ l, s.heap.chainFrom v = v :: l := by
      rcases hlist : s.heap.chainFrom v with - | ⟨a, l⟩
      · rw [hlist] at hchain
        cases hchain
      · rw [hlist] at hchain
        obtain rfl := Option.some.inj hchain.1
        exact ⟨l, rfl⟩
    rw [hl] at hchain hfresh ⊢
    refine h.putList hchain ?_ fun a ha => (hfresh a ha).1
    intro a ha hmem
    exact (hfresh a hmem).2 ha
  | get =>
    obtain ⟨r, hr, rfl⟩ := Option.map_eq_some_iff.mp hstep
    by_cases hnil : s.contents = []
    · -- the call waits, which is not a step
      rw [hnil] at h
      rw [h.get_nil] at hr
      cases hr
    · obtain ⟨v, hcall, -⟩ := h.get hnil
      obtain rfl := Option.some.inj (hr.symm.trans hcall)
      exact rep_empty
  | getCount count =>
    obtain ⟨r, hr, rfl⟩ := Option.map_eq_some_iff.mp hstep
    by_cases hnil : s.contents = []
    · rw [hnil] at h
      rw [h.getCount_nil] at hr
      cases hr
    · obtain ⟨v, Q, next', hcall, -, hleft⟩ := h.getCount hnil hg
      obtain rfl := Option.some.inj (hr.symm.trans hcall)
      exact hleft
  | outside H =>
    obtain rfl := Option.some.inj hstep
    exact h.congr hg

/-- **The blocking queue refines a list**, in every run in which the callers
keep their promises. -/
theorem always_asList (H : Heap) {es : List BlockEvent} (hg : Guarded step Owned (new H) es) :
    Always step AsList (new H) es :=
  Always.of_guarded (I := fun s => s.queue.Rep s.heap s.contents)
    (fun _ _ _ h hg hstep => step_rep h hg hstep) (fun _ h => asList_of_rep h) rep_empty hg

/-- A chain `4 → 6 → 5` that another thread makes is put behind one message;
the first three are taken, and the rest with one of them that comes back. -/
theorem always_asList_splice :
    Guarded step Owned (new .empty)
      [.put 7, .outside { Heap.empty with
        next := fun a => if a = 4 then some 6 else if a = 6 then some 5 else none, brk := 8 },
        .putList 4, .getCount 3, .put 6, .get] ∧
    Always step AsList (new .empty)
      [.put 7, .outside { Heap.empty with
        next := fun a => if a = 4 then some 6 else if a = 6 then some 5 else none, brk := 8 },
        .putList 4, .getCount 3, .put 6, .get] := by
  have hg : Guarded step Owned (new .empty)
      [.put 7, .outside { Heap.empty with
        next := fun a => if a = 4 then some 6 else if a = 6 then some 5 else none, brk := 8 },
        .putList 4, .getCount 3, .put 6, .get] := by
    decide
  exact ⟨hg, always_asList .empty hg⟩

end BlockRun

end Xkim
