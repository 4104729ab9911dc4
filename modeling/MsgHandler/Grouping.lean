/-
MsgHandler/Grouping.lean

One pass of the collector thread: `MsMessageCollector::Impl::run`
(`framework/ms/ms_message_collector.cpp`).

A pass takes everything from the queue, sorts the messages by user, and calls
`collect` of the core once for each entry of the map.  The batch is a chain, and
so are the lists in the map: a message leaves the chain, its link is cleared,
and the same field then links it behind the messages of its user.

`CollectorRun` is the thread, turn by turn of its two loops, with everybody else
in between.  Other threads put messages into the queue and write to messages
that are their own, and `collect` owns the list it is given; the order in which
a `boost::unordered_map` is visited is not known.  `always_byUser` says that
under all of this a pass calls `collect` once for each user of the batch, with
the messages of that user in the order of the batch.

What carries the proof is that a grouping is not described by the loop that
makes it but by its keys and its lists (`GroupedBy`), which do not depend on the
order of the entries.
-/
import MsgHandler.BlockQueue
import MsgHandler.Erasure

namespace Xkim

/-! ### Lists by user -/

/-- The lists `ls` are the messages `l` by user: each user of `l` has one list,
which holds the messages of that user in order. -/
structure GroupedBy (uid : Addr → ℤ) (l : List Addr) (ls : List (ℤ × List Addr)) : Prop where
  keys : (ls.map Prod.fst).Nodup
  mem_keys : ∀ u, u ∈ ls.map Prod.fst ↔ ∃ a ∈ l, uid a = u
  lists : ∀ f ∈ ls, f.2 = l.filter fun a => uid a = f.1
  perm : (ls.map Prod.snd).flatten.Perm l

variable {uid : Addr → ℤ} {u : ℤ} {a v : Addr} {l l' : List Addr} {ls ls' : List (ℤ × List Addr)}
variable {map it : List (ℤ × Links Addr)} {next next' : Addr → Option Addr} {H : Heap}

/-- A user who is there gets the message, -/
theorem addAddr_of_mem (hnodup : (ls.map Prod.fst).Nodup) (hu : u ∈ ls.map Prod.fst) :
    addAddr u a ls = ls.map fun f => (f.1, if f.1 = u then f.2 ++ [a] else f.2) := by
  induction ls with
  | nil => cases hu
  | cons f ls ih =>
    obtain ⟨w, l⟩ := f
    obtain ⟨(hw : w ∉ ls.map Prod.fst), hnodup⟩ := List.nodup_cons.mp hnodup
    rw [List.map_cons, addAddr]
    by_cases hwu : w = u
    · -- no other list is the user's
      have hrest : ls.map (fun f => (f.1, if f.1 = u then f.2 ++ [a] else f.2)) = ls.map id := by
        refine List.map_congr_left ?_
        intro f hf
        have hfu : f.1 ≠ u := by
          intro hfu
          rw [hwu, ← hfu] at hw
          exact hw (List.mem_map_of_mem hf)
        rw [if_neg hfu]
        rfl
      rw [if_pos hwu, hrest, List.map_id, if_pos hwu]
    · have hmem : u ∈ ls.map Prod.fst := by
        rcases List.mem_cons.mp hu with hu | hu
        · exact absurd hu.symm hwu
        · exact hu
      rw [if_neg hwu, ih hnodup hmem, if_neg hwu]

/-- and a new user gets a list. -/
theorem addAddr_of_not_mem (hu : u ∉ ls.map Prod.fst) : addAddr u a ls = ls ++ [(u, [a])] := by
  induction ls with
  | nil => rfl
  | cons f ls ih =>
    obtain ⟨w, l⟩ := f
    obtain ⟨hwu, hmem⟩ := List.ne_and_not_mem_of_not_mem_cons hu
    rw [addAddr, if_neg hwu.symm, ih hmem]
    rfl

theorem groupedBy_nil (uid : Addr → ℤ) : GroupedBy uid [] [] :=
  ⟨List.nodup_nil, by simp, by simp, List.Perm.refl _⟩

/-- **One more message**, added as the collector adds it. -/
theorem GroupedBy.add (h : GroupedBy uid l ls) (a : Addr) :
    GroupedBy uid (l ++ [a]) (addAddr (uid a) a ls) := by
  have hperm : ((addAddr (uid a) a ls).map Prod.snd).flatten.Perm (l ++ [a]) :=
    calc List.Perm _ (a :: (ls.map Prod.snd).flatten) := addAddr_perm (uid a) a ls
      List.Perm _ (a :: l) := h.perm.cons a
      List.Perm _ (l ++ [a]) := (List.perm_append_singleton a l).symm
  by_cases hu : uid a ∈ ls.map Prod.fst
  · rw [addAddr_of_mem h.keys hu] at hperm ⊢
    have hkeys : (ls.map fun f => (f.1, if f.1 = uid a then f.2 ++ [a] else f.2)).map Prod.fst =
        ls.map Prod.fst := by
      rw [List.map_map]
      rfl
    refine ⟨hkeys ▸ h.keys, ?_, ?_, hperm⟩
    · intro u
      rw [hkeys, h.mem_keys]
      constructor
      · rintro ⟨b, hb, rfl⟩
        exact ⟨b, List.mem_append_left _ hb, rfl⟩
      · rintro ⟨b, hb, rfl⟩
        rcases List.mem_append.mp hb with hb | hb
        · exact ⟨b, hb, rfl⟩
        · rw [List.mem_singleton.mp hb]
          exact (h.mem_keys _).mp hu
    · intro f hf
      obtain ⟨e, he, rfl⟩ := List.mem_map.mp hf
      dsimp only
      rw [List.filter_append, ← h.lists e he]
      by_cases heu : e.1 = uid a
      · simp [heu]
      · have hne : uid a ≠ e.1 := fun h => heu h.symm
        simp [heu, hne]
  · rw [addAddr_of_not_mem hu] at hperm ⊢
    -- the user has no message yet
    have hnone : ∀ b ∈ l, uid b ≠ uid a := fun b hb hbu => hu ((h.mem_keys _).mpr ⟨b, hb, hbu⟩)
    refine ⟨?_, ?_, ?_, hperm⟩
    · rw [List.map_append]
      refine List.nodup_append.mpr ⟨h.keys, List.nodup_singleton _, ?_⟩
      intro u hmem w hw huw
      rw [List.map_singleton, List.mem_singleton] at hw
      rw [huw, hw] at hmem
      exact hu hmem
    · intro u
      rw [List.map_append, List.mem_append, h.mem_keys, List.map_singleton, List.mem_singleton]
      constructor
      · rintro (⟨b, hb, rfl⟩ | rfl)
        · exact ⟨b, List.mem_append_left _ hb, rfl⟩
        · exact ⟨a, by simp, rfl⟩
      · rintro ⟨b, hb, rfl⟩
        rcases List.mem_append.mp hb with hb | hb
        · exact Or.inl ⟨b, hb, rfl⟩
        · exact Or.inr (by rw [List.mem_singleton.mp hb])
    · intro f hf
      rw [List.filter_append]
      rcases List.mem_append.mp hf with hf | hf
      · have hne : uid a ≠ f.1 := by
          rintro hfu
          exact hu (hfu ▸ List.mem_map_of_mem hf)
        rw [← h.lists f hf]
        simp [hne]
      · obtain rfl := List.mem_singleton.mp hf
        have hfilter : l.filter (fun b => uid b = uid a) = [] := by
          rw [List.filter_eq_nil_iff]
          intro b hb
          simpa using hnone b hb
        rw [hfilter]
        simp

/-- The order of the lists does not matter. -/
theorem GroupedBy.reorder (h : GroupedBy uid l ls) (hperm : ls'.Perm ls) : GroupedBy uid l ls' where
  keys := (hperm.map Prod.fst).nodup_iff.mpr h.keys
  mem_keys u := (hperm.map Prod.fst).mem_iff.trans (h.mem_keys u)
  lists f hf := h.lists f (hperm.mem_iff.mp hf)
  perm := (hperm.map Prod.snd).flatten.trans h.perm

/-- A message on a list is one of the batch, and of the user of the list. -/
theorem GroupedBy.mem_flatten (h : GroupedBy uid l (ls ++ ls'))
    (ha : a ∈ (ls'.map Prod.snd).flatten) : a ∈ l ∧ uid a ∈ ls'.map Prod.fst := by
  obtain ⟨m, hm, ham⟩ := List.mem_flatten.mp ha
  obtain ⟨f, hf, rfl⟩ := List.mem_map.mp hm
  rw [h.lists f (List.mem_append_right _ hf), List.mem_filter] at ham
  obtain ⟨hal, hau⟩ := ham
  rw [of_decide_eq_true hau]
  exact ⟨hal, List.mem_map_of_mem hf⟩

theorem Linked.keys (h : Linked next map ls) : map.map Prod.fst = ls.map Prod.fst := by
  induction h with
  | nil => rfl
  | cons he _ ih => rw [List.map_cons, List.map_cons, he.1, ih]

/-- The map is visited in some order. -/
theorem Linked.reorder (h : Linked next map ls) (hperm : it.Perm map) :
    ∃ ls', Linked next it ls' ∧ ls'.Perm ls :=
  List.perm_comp_forall₂ hperm h

/-- Every list in the map has a last message. -/
theorem Linked.tail_ne (h : Linked next map ls) (hls : ∀ f ∈ ls, f.2 ≠ []) :
    ∀ e ∈ map, e.2.tail ≠ none := by
  induction h with
  | nil => exact fun _ he => nomatch he
  | cons he _ ih =>
    intro e hmem
    rcases List.mem_cons.mp hmem with rfl | hmem
    · rw [he.2.2, Ne, List.getLast?_eq_none_iff]
      exact hls _ List.mem_cons_self
    · exact ih (fun f hf => hls f (List.mem_cons_of_mem _ hf)) e hmem

theorem GroupedBy.ne_nil (h : GroupedBy uid l ls) : ∀ f ∈ ls, f.2 ≠ [] := by
  intro f hf hnil
  obtain ⟨b, hb, hbu⟩ := (h.mem_keys f.1).mp (List.mem_map_of_mem hf)
  have hmem : b ∈ f.2 := by
    rw [h.lists f hf, List.mem_filter]
    exact ⟨hb, decide_eq_true hbu⟩
  rw [hnil] at hmem
  cases hmem

/-! ### The thread -/

/-- Where the thread is: in `_queue.get()`; in the loop over the batch, with the
rest of it and the map; or in the loop over the map, with the entries that it
has still to visit. -/
inductive CollectorPhase
  | waiting
  | grouping (list : Option Addr) (map : List (ℤ × Links Addr))
  | collecting (it : List (ℤ × Links Addr))

/-- The queue with its memory, and the thread.  `batch` are the messages that the
present pass has taken and `uids` their users at that time; `calls` are the
calls of `collect` in this pass, each with its argument and the links of the
messages at that moment. -/
structure CollectorRun extends BlockRun where
  phase : CollectorPhase
  batch : List Addr
  uids : Addr → ℤ
  calls : List (Option Addr × (Addr → Option Addr))

/-- `collect` and `collectList` of the collector and the memory, by other threads
or by the core; and the steps of the thread, which visits the map in the order
`it`. -/
inductive CollectorEvent
  | collect (msg : Addr)
  | collectList (msg : Addr)
  | outside (H : Heap)
  | take
  | turn
  | iterate (it : List (ℤ × Links Addr))
  | call
  | clear

/-- A step of the thread itself. -/
def CollectorEvent.isOwn : CollectorEvent → Bool
  | .collect _ | .collectList _ | .outside _ => false
  | .take | .turn | .iterate _ | .call | .clear => true

namespace CollectorRun

/-- A new collector. -/
def new (H : Heap) : CollectorRun := ⟨.new H, .waiting, [], fun _ => 0, []⟩

def take (s : CollectorRun) : Option CollectorRun :=
  match s.phase with
  | .waiting =>
    s.queue.get.map fun r =>
      { queue := r.2
        heap := s.heap
        contents := []
        phase := .grouping (some r.1) []
        batch := s.contents
        uids := fun a => (s.heap.msg a).uid
        calls := [] }
  | _ => none

/-- One turn of the loop over the batch. -/
def turn (s : CollectorRun) : Option CollectorRun :=
  match s.phase with
  | .grouping (some msg) map =>
    -- the link is read before it is cleared
    let list := s.heap.next msg
    let r := MsMessageCollector.add (s.heap.msg msg).uid msg (s.heap.setNext msg none) map
    some { s with heap := r.2, phase := .grouping list r.1 }
  | _ => none

def iterate (s : CollectorRun) (it : List (ℤ × Links Addr)) : Option CollectorRun :=
  match s.phase with
  -- `_map.begin()`, when the batch is at its end
  | .grouping none map => if it.Perm map then some { s with phase := .collecting it } else none
  | _ => none

/-- `_core->collect(it->second._head)`. -/
def call (s : CollectorRun) : Option CollectorRun :=
  match s.phase with
  | .collecting (e :: it) =>
    some { s with phase := .collecting it, calls := s.calls ++ [(e.2.head, s.heap.next)] }
  | _ => none

/-- The end of the pass, and `_map.clear()`. -/
def clear (s : CollectorRun) : Option CollectorRun :=
  match s.phase with
  | .collecting [] => some { s with phase := .waiting }
  | _ => none

def step (s : CollectorRun) : CollectorEvent → Option CollectorRun
  | .collect msg => (s.toBlockRun.step (.put msg)).map fun b => { s with toBlockRun := b }
  | .collectList msg => (s.toBlockRun.step (.putList msg)).map fun b => { s with toBlockRun := b }
  | .outside H => (s.toBlockRun.step (.outside H)).map fun b => { s with toBlockRun := b }
  | .take => s.take
  | .turn => s.turn
  | .iterate it => s.iterate it
  | .call => s.call
  | .clear => s.clear

/-- The messages that are the thread's: those of the batch that have not been
given to `collect`. -/
def held (s : CollectorRun) : List Addr :=
  match s.phase with
  | .waiting => []
  | .grouping _ _ => s.batch
  | .collecting it => s.batch.filter fun a => s.uids a ∈ it.map Prod.fst

/-- What everybody else promises: to use the queue as agreed, and to leave the
messages alone that are the thread's. -/
def Owned (s : CollectorRun) : CollectorEvent → Prop
  | .collect msg => s.toBlockRun.Owned (.put msg) ∧ msg ∉ s.held
  | .collectList msg =>
    s.toBlockRun.Owned (.putList msg) ∧ ∀ a ∈ s.heap.chainFrom msg, a ∉ s.held
  | .outside H =>
    s.toBlockRun.Owned (.outside H) ∧
      ∀ a ∈ s.held, H.next a = s.heap.next a ∧ (H.msg a).uid = (s.heap.msg a).uid
  | .take | .turn | .iterate _ | .call | .clear => True

instance (s : CollectorRun) (e : CollectorEvent) : Decidable (s.Owned e) :=
  match e with
  | .collect _ => inferInstanceAs (Decidable (_ ∧ _ ∉ _))
  | .collectList _ => inferInstanceAs (Decidable (_ ∧ ∀ a ∈ _, _))
  | .outside _ => inferInstanceAs (Decidable (_ ∧ ∀ a ∈ _, _))
  | .take | .turn | .iterate _ | .call | .clear => isTrue trivial

/-- Steps of the thread bring the pass to its end. -/
def CanEnd (s : CollectorRun) : Prop :=
  ∃ es s', (∀ e ∈ es, CollectorEvent.isOwn e) ∧ runEvents step s es = some s' ∧
    s'.phase = .collecting []

/-- **The batch is grouped by user.**  The loop over the batch has a rest that
ends, and no NULL to follow in the map.  In the loop over the map, there has
been one call for each user of the batch but those whose entries are still to
come, and its argument was the chain of exactly the messages of that user, in
the order of the batch.  The thread can end its pass whatever has happened. -/
structure ByUser (s : CollectorRun) : Prop where
  grouping : ∀ list map, s.phase = .grouping list map → s.calls = [] ∧
    (∃ rest, rest <:+ s.batch ∧ Chain s.heap.next list rest) ∧ ∀ e ∈ map, e.2.tail ≠ none
  collecting : ∀ it, s.phase = .collecting it → ∃ us : List ℤ,
    (us ++ it.map Prod.fst).Nodup ∧
      (∀ u, u ∈ us ++ it.map Prod.fst ↔ ∃ a ∈ s.batch, s.uids a = u) ∧
      List.Forall₂ (fun u c => Chain c.2 c.1 (s.batch.filter fun a => s.uids a = u)) us s.calls
  ends : s.phase ≠ .waiting → s.CanEnd

/-! ### The invariant -/

/-- In the loop over the batch: the part that is done is grouped in the map, and
the rest is what `list` leads to. -/
structure Sorting (s : CollectorRun) (list : Option Addr) (map : List (ℤ × Links Addr))
    (done rest : List Addr) (ls : List (ℤ × List Addr)) : Prop where
  calls : s.calls = []
  batch : s.batch = done ++ rest
  grouped : GroupedBy s.uids done ls
  linked : Linked s.heap.next map ls
  chain : Chain s.heap.next list rest
  uids : ∀ a ∈ rest, (s.heap.msg a).uid = s.uids a

/-- In the loop over the map: some of the lists have been given away, and the
entries that are left hold the others. -/
structure Handing (s : CollectorRun) (it : List (ℤ × Links Addr))
    (gone left : List (ℤ × List Addr)) : Prop where
  grouped : GroupedBy s.uids s.batch (gone ++ left)
  linked : Linked s.heap.next it left
  calls : List.Forall₂ (fun f c => Chain c.2 c.1 f.2) gone s.calls

structure Inv (s : CollectorRun) : Prop where
  rep : s.queue.Rep s.heap s.contents
  nodup : s.batch.Nodup
  apart : ∀ a ∈ s.held, a ∉ s.contents
  grouping : ∀ list map, s.phase = .grouping list map → ∃ done rest ls,
    s.Sorting list map done rest ls
  collecting : ∀ it, s.phase = .collecting it → ∃ gone left, s.Handing it gone left

variable {s s' : CollectorRun} {e : CollectorEvent} {list : Option Addr}
variable {done rest : List Addr} {gone left : List (ℤ × List Addr)}

theorem held_grouping (h : s.phase = .grouping list map) : s.held = s.batch := by
  unfold held
  rw [h]

theorem held_collecting (h : s.phase = .collecting it) :
    s.held = s.batch.filter fun a => s.uids a ∈ it.map Prod.fst := by
  unfold held
  rw [h]

theorem Sorting.mem_done (h : s.Sorting list map done rest ls)
    (ha : a ∈ (ls.map Prod.snd).flatten) : a ∈ done := h.grouped.perm.mem_iff.mp ha

/-- What is on the lists that are left is the thread's. -/
theorem Handing.mem_held (h : s.Handing it gone left) (hphase : s.phase = .collecting it)
    (ha : a ∈ (left.map Prod.snd).flatten) : a ∈ s.held := by
  obtain ⟨hbatch, hkey⟩ := h.grouped.mem_flatten ha
  rw [held_collecting hphase, List.mem_filter, h.linked.keys]
  exact ⟨hbatch, decide_eq_true hkey⟩

theorem inv_new (H : Heap) : (new H).Inv :=
  ⟨MsMessageBlockQueue.rep_empty, List.nodup_nil, fun _ ha => (nomatch ha),
    fun _ _ h => (nomatch h), fun _ h => (nomatch h)⟩

/-! ### One step -/

/-- What others do does not affect the thread, as long as its messages are left
alone. -/
theorem Inv.frame (h : s.Inv) {b : BlockRun} (hrep : b.queue.Rep b.heap b.contents)
    (hapart : ∀ a ∈ s.held, a ∉ b.contents) (hnext : ∀ a ∈ s.held, b.heap.next a = s.heap.next a)
    (huid : ∀ a ∈ s.held, (b.heap.msg a).uid = (s.heap.msg a).uid) :
    Inv { s with toBlockRun := b } := by
  refine ⟨hrep, h.nodup, hapart, ?_, ?_⟩
  · intro list map (hphase : s.phase = .grouping list map)
    obtain ⟨done, rest, ls, hs⟩ := h.grouping list map hphase
    rw [held_grouping hphase, hs.batch] at hnext huid
    refine ⟨done, rest, ls, hs.calls, hs.batch, hs.grouped, ?_, ?_, ?_⟩
    · exact hs.linked.congr fun a ha => hnext a (List.mem_append_left _ (hs.mem_done ha))
    · exact Seg.congr hs.chain fun a ha => hnext a (List.mem_append_right _ ha)
    · intro a ha
      exact (huid a (List.mem_append_right _ ha)).trans (hs.uids a ha)
  · intro it hphase
    obtain ⟨gone, left, hs⟩ := h.collecting it hphase
    refine ⟨gone, left, hs.grouped, hs.linked.congr ?_, hs.calls⟩
    exact fun a ha => hnext a (hs.mem_held hphase ha)

theorem Inv.collect {msg : Addr} (h : s.Inv) (hg : s.Owned (.collect msg))
    (hstep : (s.toBlockRun.step (.put msg)).map (fun b => { s with toBlockRun := b }) = some s') :
    s'.Inv := by
  obtain ⟨b, hb, rfl⟩ := Option.map_eq_some_iff.mp hstep
  have hrep := BlockRun.step_rep h.rep hg.1 hb
  obtain rfl := Option.some.inj hb
  obtain ⟨⟨hmsg, -⟩, hheld⟩ := hg
  refine h.frame hrep ?_ ?_ (fun _ _ => rfl)
  · intro a ha hmem
    rcases List.mem_append.mp hmem with hmem | hmem
    · exact h.apart a ha hmem
    · exact hheld (List.mem_singleton.mp hmem ▸ ha)
  · intro a ha
    refine Links.push_of_not_mem h.rep.1 hmsg ?_ (h.apart a ha)
    rintro rfl
    exact hheld ha

theorem Inv.collectList {msg : Addr} (h : s.Inv) (hg : s.Owned (.collectList msg))
    (hstep : (s.toBlockRun.step (.putList msg)).map (fun b => { s with toBlockRun := b }) =
      some s') : s'.Inv := by
  obtain ⟨b, hb, rfl⟩ := Option.map_eq_some_iff.mp hstep
  have hrep := BlockRun.step_rep h.rep hg.1 hb
  obtain rfl := Option.some.inj hb
  refine h.frame hrep ?_ ?_ (fun _ _ => rfl)
  · intro a ha hmem
    rcases List.mem_append.mp hmem with hmem | hmem
    · exact h.apart a ha hmem
    · exact hg.2 a hmem ha
  · exact fun a ha => Links.attach_of_not_mem h.rep.1 (h.apart a ha)

theorem Inv.outside {H : Heap} (h : s.Inv) (hg : s.Owned (.outside H))
    (hstep : (s.toBlockRun.step (.outside H)).map (fun b => { s with toBlockRun := b }) =
      some s') : s'.Inv := by
  obtain ⟨b, hb, rfl⟩ := Option.map_eq_some_iff.mp hstep
  have hrep := BlockRun.step_rep h.rep hg.1 hb
  obtain rfl := Option.some.inj hb
  exact h.frame hrep h.apart (fun a ha => (hg.2 a ha).1) (fun a ha => (hg.2 a ha).2)

/-- The pass begins with the messages of the queue. -/
theorem Inv.take (h : s.Inv) (hstep : s.take = some s') : s'.Inv := by
  unfold CollectorRun.take at hstep
  split at hstep
  · obtain ⟨r, hr, rfl⟩ := Option.map_eq_some_iff.mp hstep
    by_cases hnil : s.contents = []
    · have hrep := h.rep
      rw [hnil] at hrep
      rw [hrep.get_nil] at hr
      cases hr
    · obtain ⟨v, hcall, hchain⟩ := h.rep.get hnil
      obtain rfl := Option.some.inj (hr.symm.trans hcall)
      refine ⟨MsMessageBlockQueue.rep_empty, h.rep.1.nodup, fun _ _ => List.not_mem_nil, ?_,
        fun _ h => nomatch h⟩
      intro list map hphase
      cases hphase
      exact ⟨[], s.contents, [], rfl, rfl, groupedBy_nil _, List.Forall₂.nil, hchain,
        fun _ _ => rfl⟩
  · cases hstep

/-- **A turn of the loop** moves one message from the rest to the list of its
user. -/
theorem Sorting.turn {msg : Addr} (h : s.Sorting (some msg) map done (msg :: rest) ls)
    (hnodup : s.batch.Nodup) {r : List (ℤ × Links Addr) × Heap}
    (hr : MsMessageCollector.add (s.heap.msg msg).uid msg (s.heap.setNext msg none) map = r) :
    Sorting { s with heap := r.2, phase := .grouping (s.heap.next msg) r.1 } (s.heap.next msg) r.1
        (done ++ [msg]) rest (addAddr (s.uids msg) msg ls) ∧
      ∀ a ∉ s.batch, r.2.next a = s.heap.next a := by
  rw [h.batch] at hnodup
  obtain ⟨hdone, -, hapart⟩ := List.nodup_append.mp hnodup
  have hlists : (ls.map Prod.snd).flatten.Nodup := h.grouped.perm.nodup_iff.mpr hdone
  have hnot : ∀ a ∈ msg :: rest, a ∉ (ls.map Prod.snd).flatten :=
    fun a ha hmem => hapart a (h.mem_done hmem) a ha rfl
  obtain ⟨hlinked, hchain, hframe⟩ := h.linked.turn h.chain hlists hnot hr
  have hmsg : r.2.msg = s.heap.msg := by
    rw [← hr, MsMessageCollector.add_msg]
    rfl
  rw [h.uids msg List.mem_cons_self] at hlinked
  refine ⟨⟨h.calls, ?_, h.grouped.add msg, hlinked, hchain, ?_⟩, ?_⟩
  · rw [h.batch, List.append_cons]
  · intro a ha
    show (r.2.msg a).uid = s.uids a
    rw [hmsg]
    exact h.uids a (List.mem_cons_of_mem _ ha)
  · intro a ha
    rw [h.batch, List.mem_append, not_or] at ha
    refine hframe a ?_ fun hmem => ha.1 (h.mem_done hmem)
    rintro rfl
    exact ha.2 List.mem_cons_self

theorem Inv.turn (h : s.Inv) (hstep : s.turn = some s') : s'.Inv := by
  unfold CollectorRun.turn at hstep
  split at hstep
  · rename_i msg map hphase
    obtain rfl := Option.some.inj hstep
    obtain ⟨done, rest, ls, hs⟩ := h.grouping _ _ hphase
    -- the rest is not at its end
    obtain ⟨rest, rfl⟩ : ∃ rest', rest = msg :: rest' := by
      rcases rest with - | ⟨a, rest⟩
      · cases hs.chain
      · obtain rfl := Option.some.inj hs.chain.1
        exact ⟨rest, rfl⟩
    obtain ⟨hs', hframe⟩ := hs.turn h.nodup rfl
    have hapart := h.apart
    rw [held_grouping hphase] at hapart
    refine ⟨h.rep.congr ?_, h.nodup, hapart, ?_, fun _ h => nomatch h⟩
    · -- only links of the batch are written, and none of it is in the queue
      exact fun a ha => hframe a fun hmem => hapart a hmem ha
    · intro list map hphase'
      cases hphase'
      exact ⟨_, _, _, hs'⟩
  · cases hstep

theorem Inv.iterate (h : s.Inv) (hstep : s.iterate it = some s') : s'.Inv := by
  unfold CollectorRun.iterate at hstep
  split at hstep
  · rename_i map hphase
    split_ifs at hstep with hperm
    obtain rfl := Option.some.inj hstep
    obtain ⟨done, rest, ls, hs⟩ := h.grouping _ _ hphase
    -- the rest is at its end, so that all of the batch is grouped
    have hrest : [] = rest := Chain.unique (p := none) rfl hs.chain
    have hbatch : s.batch = done := by rw [hs.batch, ← hrest, List.append_nil]
    obtain ⟨ls', hlinked, hls⟩ := hs.linked.reorder hperm
    have hapart := h.apart
    rw [held_grouping hphase] at hapart
    refine ⟨h.rep, h.nodup, ?_, fun _ _ h => (nomatch h), ?_⟩
    · exact fun a ha => hapart a (List.mem_of_mem_filter ha)
    · intro it' hphase'
      cases hphase'
      refine ⟨[], ls', ?_, hlinked, ?_⟩
      · show GroupedBy s.uids s.batch ls'
        rw [hbatch]
        exact hs.grouped.reorder hls
      · show List.Forall₂ _ [] s.calls
        rw [hs.calls]
        exact List.Forall₂.nil
  · cases hstep

/-- **A call** gives away one list. -/
theorem Handing.call {e : ℤ × Links Addr} (h : s.Handing (e :: it) gone left) :
    ∃ f left', Handing
      { s with phase := .collecting it, calls := s.calls ++ [(e.2.head, s.heap.next)] } it
      (gone ++ [f]) left' := by
  obtain ⟨hgrouped, hlinked, hcalls⟩ := h
  rcases hlinked with - | ⟨he, hrest⟩
  rename_i f left'
  refine ⟨f, left', ?_, hrest, ?_⟩
  · show GroupedBy s.uids s.batch (gone ++ [f] ++ left')
    rw [← List.append_cons]
    exact hgrouped
  · exact List.rel_append hcalls (List.Forall₂.cons he.2.1 List.Forall₂.nil)

theorem Inv.call (h : s.Inv) (hstep : s.call = some s') : s'.Inv := by
  unfold CollectorRun.call at hstep
  split at hstep
  · rename_i e it hphase
    obtain rfl := Option.some.inj hstep
    obtain ⟨gone, left, hs⟩ := h.collecting _ hphase
    refine ⟨h.rep, h.nodup, ?_, fun _ _ h => (nomatch h), ?_⟩
    · -- what is held after the call was held before
      intro a ha
      refine h.apart a ?_
      obtain ⟨hbatch, hkey⟩ := List.mem_filter.mp ha
      rw [held_collecting hphase, List.mem_filter]
      exact ⟨hbatch, decide_eq_true (List.mem_cons_of_mem _ (of_decide_eq_true hkey))⟩
    · intro it' hphase'
      cases hphase'
      obtain ⟨f, left', hs'⟩ := hs.call
      exact ⟨_, _, hs'⟩
  · cases hstep

theorem Inv.clear (h : s.Inv) (hstep : s.clear = some s') : s'.Inv := by
  unfold CollectorRun.clear at hstep
  split at hstep
  · obtain rfl := Option.some.inj hstep
    exact ⟨h.rep, h.nodup, fun _ ha => (nomatch ha), fun _ _ h => (nomatch h),
      fun _ h => nomatch h⟩
  · cases hstep

theorem Inv.step (h : s.Inv) (hg : s.Owned e) (hstep : s.step e = some s') : s'.Inv := by
  cases e with
  | collect msg => exact h.collect hg hstep
  | collectList msg => exact h.collectList hg hstep
  | outside H => exact h.outside hg hstep
  | take => exact h.take hstep
  | turn => exact h.turn hstep
  | iterate it => exact h.iterate hstep
  | call => exact h.call hstep
  | clear => exact h.clear hstep

/-! ### A pass ends -/

theorem CanEnd.cons {t : CollectorRun} (h : t.CanEnd) (he : e.isOwn) (ht : s.step e = some t) :
    s.CanEnd := by
  obtain ⟨es, s', hown, hrun, hend⟩ := h
  refine ⟨e :: es, s', List.forall_mem_cons.mpr ⟨he, hown⟩, ?_, hend⟩
  rw [runEvents, ht]
  exact hrun

/-- The calls that are left are made. -/
theorem canEnd_of_collecting (it : List (ℤ × Links Addr)) {s : CollectorRun}
    (hphase : s.phase = .collecting it) : s.CanEnd := by
  induction it generalizing s with
  | nil => exact ⟨[], s, fun _ he => (nomatch he), rfl, hphase⟩
  | cons e it ih =>
    have hcall : s.step .call = some { s with
        phase := .collecting it, calls := s.calls ++ [(e.2.head, s.heap.next)] } := by
      show s.call = _
      rw [CollectorRun.call, hphase]
    exact CanEnd.cons (ih rfl) rfl hcall

/-- The rest of the batch is sorted, and then the map is visited. -/
theorem Sorting.canEnd {s : CollectorRun} {list : Option Addr} {map : List (ℤ × Links Addr)}
    {done rest : List Addr} {ls : List (ℤ × List Addr)} (h : s.Sorting list map done rest ls)
    (hphase : s.phase = .grouping list map) (hnodup : s.batch.Nodup) : s.CanEnd := by
  induction rest generalizing s list map done ls with
  | nil =>
    obtain rfl : list = none := h.chain
    have hiterate : s.step (.iterate map) = some { s with phase := .collecting map } := by
      show s.iterate map = _
      rw [CollectorRun.iterate, hphase]
      exact if_pos (List.Perm.refl map)
    exact CanEnd.cons (canEnd_of_collecting map rfl) rfl hiterate
  | cons msg rest ih =>
    obtain rfl : list = some msg := h.chain.1
    obtain ⟨hs', -⟩ := h.turn hnodup rfl
    refine CanEnd.cons (e := .turn) (ih hs' rfl hnodup) rfl ?_
    show s.turn = _
    rw [CollectorRun.turn, hphase]

theorem Inv.canEnd (h : s.Inv) (hphase : s.phase ≠ .waiting) : s.CanEnd := by
  rcases hp : s.phase with - | ⟨list, map⟩ | it
  · exact absurd hp hphase
  · obtain ⟨done, rest, ls, hs⟩ := h.grouping list map hp
    exact hs.canEnd hp h.nodup
  · exact canEnd_of_collecting it hp

/-! ### Runs -/

theorem Inv.byUser (h : s.Inv) : s.ByUser where
  grouping list map hphase := by
    obtain ⟨done, rest, ls, hs⟩ := h.grouping list map hphase
    refine ⟨hs.calls, ⟨rest, ⟨done, hs.batch.symm⟩, hs.chain⟩, ?_⟩
    exact hs.linked.tail_ne hs.grouped.ne_nil
  collecting it hphase := by
    obtain ⟨gone, left, hs⟩ := h.collecting it hphase
    have hkeys : gone.map Prod.fst ++ it.map Prod.fst = (gone ++ left).map Prod.fst := by
      rw [List.map_append, hs.linked.keys]
    refine ⟨gone.map Prod.fst, ?_, ?_, ?_⟩
    · rw [hkeys]
      exact hs.grouped.keys
    · rw [hkeys]
      exact hs.grouped.mem_keys
    · rw [List.forall₂_map_left_iff]
      have hlists : ∀ f ∈ gone, f.2 = s.batch.filter fun a => s.uids a = f.1 :=
        fun f hf => hs.grouped.lists f (List.mem_append_left _ hf)
      refine ((List.forall₂_and_left _ _).mpr ⟨hlists, hs.calls⟩).imp ?_
      rintro f c ⟨hlist, hc⟩
      rw [← hlist]
      exact hc
  ends := h.canEnd

/-- **The collector groups a batch by user without loss**, in every run in which
the others keep their promises. -/
theorem always_byUser (H : Heap) {es : List CollectorEvent}
    (hg : Guarded step Owned (new H) es) : Always step ByUser (new H) es :=
  Always.of_guarded (I := Inv) (fun _ _ _ h hg hstep => h.step hg hstep) (fun _ h => h.byUser)
    (inv_new H) hg

/-- Three messages of two users, of whom the second comes first in the map.  A
fourth message comes in while they are sorted, and one of the three comes back
before the pass is over; both are taken by the next pass. -/
theorem always_byUser_two :
    Guarded step Owned
      (new { Heap.empty with msg := fun a => { createIMessage [] 0 with uid := (a : ℤ) % 2 } })
      [.collect 1, .collect 2, .collect 3, .take, .turn, .collect 4, .turn, .turn,
        .iterate [(0, ⟨some 2, some 2⟩), (1, ⟨some 1, some 3⟩)], .call, .collect 2, .call, .clear,
        .take, .turn] ∧
    Always step ByUser
      (new { Heap.empty with msg := fun a => { createIMessage [] 0 with uid := (a : ℤ) % 2 } })
      [.collect 1, .collect 2, .collect 3, .take, .turn, .collect 4, .turn, .turn,
        .iterate [(0, ⟨some 2, some 2⟩), (1, ⟨some 1, some 3⟩)], .call, .collect 2, .call, .clear,
        .take, .turn] := by
  have hg : Guarded step Owned
      (new { Heap.empty with msg := fun a => { createIMessage [] 0 with uid := (a : ℤ) % 2 } })
      [.collect 1, .collect 2, .collect 3, .take, .turn, .collect 4, .turn, .turn,
        .iterate [(0, ⟨some 2, some 2⟩), (1, ⟨some 1, some 3⟩)], .call, .collect 2, .call, .clear,
        .take, .turn] := by
    decide
  exact ⟨hg, always_byUser _ hg⟩

end CollectorRun

end Xkim
