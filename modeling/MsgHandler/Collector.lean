/-
MsgHandler/Collector.lean

What the pending-message collector gets from an IO thread.

There are two ways.  `pushMessage` passes on a message whose connection is not
registered any more, and `whenClosed` passes on the first of the messages that
a connection had not written.  A message has a bit `_need_collect`, which says
whether it is worth the trouble: it is 0 for acknowledgements, for the answers
to IM_AUTH and IM_TOUCH, and for messages that close the connection.  Neither of
the two looks at it, so a message without the bit is collected exactly like one
with it.

`Running` is the invariant of a thread with a collector: every connection object
has its messages in order, no two of them share one, and none is in the
collector's queue.  Every event keeps it (`Running.step`), and adds to the queue
exactly what the thread hands over (`handedOver`).  So a run puts only messages
with the bit into the queue exactly if it hands over only such messages
(`collected_flagged_iff`).
-/
import MsgHandler.Footprint
import MsgHandler.LocalRouter

namespace Xkim

open IoPushList (msgOf)

/-! ### The queue of the collector -/

/-- What came into the queue has the bit `_need_collect`. -/
def Flagged (H : Heap) (before after : List Addr) : Prop :=
  ∀ v ∈ after, v ∉ before → (H.msg v).needCollect = true

instance (H : Heap) (before after : List Addr) : Decidable (Flagged H before after) :=
  inferInstanceAs (Decidable (∀ v ∈ after, _))

theorem flagged_append {H : Heap} {q l : List Addr} (hl : ∀ v ∈ l, v ∉ q) :
    Flagged H q (q ++ l) ↔ ∀ v ∈ l, (H.msg v).needCollect = true := by
  refine ⟨fun h v hv => h v (List.mem_append_right _ hv) (hl v hv), ?_⟩
  intro h v hv hnot
  exact h v ((List.mem_append.mp hv).resolve_left hnot)

/-! ### The objects in use -/

/-- The objects that the owner knows are among the first `n`. -/
structure IoAppOwner.Below (w : IoAppOwner) (n : ℕ) : Prop where
  registered : ∀ e ∈ w.onlineRegister, e.2 < n
  spare : ∀ o ∈ w.cache.spare, o < n

theorem IoAppOwner.Below.mono {w : IoAppOwner} {n n' : ℕ} (h : w.Below n) (hn : n ≤ n') :
    w.Below n' :=
  ⟨fun e he => (h.registered e he).trans_le hn, fun o ho => (h.spare o ho).trans_le hn⟩

theorem IoAppOwner.Below.destroy {w : IoAppOwner} {n o : ℕ} (h : w.Below n) (ho : o < n)
    (id : ℕ) : (w.destroy o id).Below n := by
  refine ⟨fun e he => h.registered e (ConnectionRegister.mem_unset.mp he).1, fun o' ho' => ?_⟩
  have hmem : o' ∈ w.cache.spare ++ [o] := ConnectionCache.spare_recycle w.cache o ▸ ho'
  rcases List.mem_append.mp hmem with hmem | hmem
  · exact h.spare o' hmem
  · exact (List.mem_singleton.mp hmem).symm ▸ ho

/-- The destroy callback of an object in use adds no other. -/
theorem belowRule {n o : ℕ} (ho : o < n) :
    AppRule (IoAppOwner.destroy o) fun w w' => w.owner.Below n → w'.owner.Below n where
  refl _ := id
  trans h h' := h' ∘ h
  pendingPushData _ _ := id
  whenClosed w h := (AppWorld.whenClosed_owner w).1.symm ▸ h
  whenDestroy w h := h.destroy ho w.conn.id
  getPushData _ := id
  destroyMsgData _ _ := id
  setWpos _ _ _ := id

namespace IoApp

variable {s s' : IoApp} {q q' : List Addr} {v : Addr} {o : Obj}

/-- What the virtual members of the object `o` reach. -/
def world (s : IoApp) (o : Obj) : AppWorld IoAppOwner := (s.ctx o [] true).app

/-- The push list of `o`. -/
def pushList (s : IoApp) (o : Obj) : List Addr := (s.objs o).2.pushBuffer.items s.heap

/-- The push data that `o` holds. -/
def held (s : IoApp) (o : Obj) : List Addr := (s.objs o).1.currentPush.toList ++ s.pushList o

/-- The messages that `o` has not written completely. -/
def pending (s : IoApp) (o : Obj) : List Addr := pendingOf (s.ctx o [] true)

theorem pending_eq (s : IoApp) (o : Obj) : s.pending o = (s.held o).map (msgOf s.heap) := rfl

/-- The messages that wait for the collector. -/
def collectQueue (s : IoApp) : List Addr := queueOf (s.ctx 0 [] true).app

theorem collectQueue_eq {s : IoApp} {Q : MsMessageBlockQueue} {l : List Addr}
    (hQ : s.collector = some Q) (hrep : Q.Rep s.heap l) : s.collectQueue = l := by
  have hcollector : (s.ctx 0 [] true).app.collector = some Q := hQ
  rw [collectQueue, queueOf, hcollector]
  exact hrep.toList_eq

/-- A thread with a collector, whose queue is `q`. -/
structure Running (s : IoApp) (q : List Addr) : Prop where
  queue : ∃ Q, s.collector = some Q ∧ Q.Rep s.heap q
  bound : ∀ v ∈ q, v < s.heap.brk
  holds : ∀ o < s.brk, Holds (s.objs o).1.currentPush (s.world o) (s.pushList o) q
  apart : ∀ o < s.brk, ∀ o' < s.brk, o ≠ o' →
    (s.held o).Disjoint (s.held o') ∧ (s.pending o).Disjoint (s.pending o')
  owner : s.owner.Below s.brk

theorem Running.collectQueue_eq (h : Running s q) : s.collectQueue = q := by
  obtain ⟨Q, hQ, hrep⟩ := h.queue
  exact IoApp.collectQueue_eq hQ hrep

theorem Running.queue_apart (h : Running s q) (ho : o < s.brk) : (s.pending o).Disjoint q := by
  intro v hv hq
  obtain ⟨d, hd, rfl⟩ := List.mem_map.mp hv
  exact (h.holds o ho).apart d hd hq

/-- The memory of what `o` holds is as it was. -/
structure Spared (s : IoApp) (o : Obj) (H : Heap) : Prop where
  pd : ∀ d ∈ s.held o, H.pd d = s.heap.pd d ∧ H.pdNext d = s.heap.pdNext d
  next : ∀ v ∈ s.pending o, H.next v = s.heap.next v
  pdBrk : s.heap.pdBrk ≤ H.pdBrk
  brk : s.heap.brk ≤ H.brk

theorem Running.spared_of_confined {D A : List Addr} {H : Heap} (h : Running s q) (ho : o < s.brk)
    (hconf : s.heap.Confined D A H) (hD : (s.held o).Disjoint D)
    (hA : (s.pending o).Disjoint A) : s.Spared o H := by
  have hholds := h.holds o ho
  refine ⟨fun d hd => hconf.pd d (hholds.bound d hd).1 (hD hd), fun v hv => ?_, hconf.pdBrk,
    hconf.brk⟩
  obtain ⟨d, hd, rfl⟩ := List.mem_map.mp hv
  exact hconf.next _ (hholds.bound d hd).2 (hA hv)

/-- An object whose memory is spared holds what it held. -/
theorem Running.keeps (h : Running s q) (ho : o < s.brk) (hobjs : s'.objs o = s.objs o)
    (hspared : s.Spared o s'.heap) (hQ : ∃ Q, s'.collector = some Q ∧ Q.Rep s'.heap q')
    (hbound : ∀ v ∈ q', v < s'.heap.brk) (hq : (s.pending o).Disjoint q') :
    Holds (s'.objs o).1.currentPush (s'.world o) (s'.pushList o) q' ∧ s'.held o = s.held o ∧
      s'.pending o = s.pending o := by
  obtain ⟨Q, hcoll, hrep⟩ := hQ
  have hlist : ∀ d ∈ s.pushList o, d ∈ s.held o := fun d hd => List.mem_append_right _ hd
  have hconn : (s'.world o).conn = (s.world o).conn := congrArg Prod.snd hobjs
  obtain ⟨hholds, hpend⟩ := (h.holds o ho).frame hconn
    (fun d hd => (hspared.pd d (hlist d hd)).2) (fun d hd => (hspared.pd d hd).1)
    (fun d hd => hspared.next _ (List.mem_map_of_mem (hlist d hd))) hspared.pdBrk hspared.brk hcoll
    hrep hbound (fun d hd => hq (List.mem_map_of_mem hd))
  have hsame : s'.pushList o = s.pushList o := hholds.list.items_eq
  have hheld : s'.held o = s.held o := by
    rw [held, held, hsame, hobjs]
  refine ⟨?_, hheld, ?_⟩
  · rw [hsame, hobjs]
    exact hholds
  · rw [pending_eq, hheld]
    exact hpend

/-- Something that spares what every object holds. -/
theorem Running.spared (h : Running s q) (hbrk : s'.brk = s.brk)
    (hobjs : s'.objs = s.objs) (hspared : ∀ o < s.brk, s.Spared o s'.heap)
    (hQ : ∃ Q, s'.collector = some Q ∧ Q.Rep s'.heap q') (hbound : ∀ v ∈ q', v < s'.heap.brk)
    (hq : ∀ o < s.brk, (s.pending o).Disjoint q') (howner : s'.owner.Below s.brk) :
    Running s' q' := by
  have hkeeps := fun o ho => h.keeps ho (congrFun hobjs o) (hspared o ho) hQ hbound (hq o ho)
  refine ⟨hQ, hbound, ?_, ?_, hbrk.symm ▸ howner⟩
  · rw [hbrk]
    exact fun o ho => (hkeeps o ho).1
  · rw [hbrk]
    intro o ho o' ho' hne
    obtain ⟨-, hheld, hpend⟩ := hkeeps o ho
    obtain ⟨-, hheld', hpend'⟩ := hkeeps o' ho'
    rw [hheld, hheld', hpend, hpend']
    exact h.apart o ho o' ho' hne

/-- Something that touches the object `o` only: it writes the push data `D` and links
of the messages `A`, and what `o` and the queue hold is among them or new. -/
theorem Running.touched {D A : List Addr} (ds : List Addr) (h : Running s q)
    (hbrk : ∀ o' < s'.brk, o' < s.brk ∨ o' = o) (hobjs : ∀ o' ≠ o, s'.objs o' = s.objs o')
    (hconf : s.heap.Confined D A s'.heap)
    (hD : ∀ o' < s.brk, o' ≠ o → (s.held o').Disjoint D)
    (hA : ∀ o' < s.brk, o' ≠ o → (s.pending o').Disjoint A)
    (hholds : Holds (s'.objs o).1.currentPush (s'.world o) ds q')
    (hheld : ∀ d ∈ (s'.objs o).1.currentPush.toList ++ ds, d ∈ D ∨ s.heap.pdBrk ≤ d)
    (hmsgs : ∀ d ∈ (s'.objs o).1.currentPush.toList ++ ds, msgOf s'.heap d ∈ A)
    (hq : q' ⊆ A) (howner : s'.owner.Below s'.brk) : Running s' q' := by
  have hkeeps : ∀ o' < s.brk, o' ≠ o → _ := fun o' ho' hne =>
    h.keeps ho' (hobjs o' hne) (h.spared_of_confined ho' hconf (hD o' ho' hne) (hA o' ho' hne))
      hholds.queue hholds.queueBound fun v hv hmem => hA o' ho' hne hv (hq hmem)
  have hlist : s'.pushList o = ds := hholds.list.items_eq
  -- the object that is touched and another one
  have hnew : ∀ o' < s.brk, o' ≠ o →
      (s'.held o).Disjoint (s'.held o') ∧ (s'.pending o).Disjoint (s'.pending o') := by
    intro o' ho' hne
    obtain ⟨-, hheld', hpend'⟩ := hkeeps o' ho' hne
    rw [hheld', hpend']
    constructor
    · intro d hd hd'
      rw [held, hlist] at hd
      rcases hheld d hd with hmem | hfresh
      · exact hD o' ho' hne hd' hmem
      · exact absurd ((h.holds o' ho').bound d hd').1 (not_lt.mpr hfresh)
    · intro v hv hv'
      rw [pending_eq, held, hlist] at hv
      obtain ⟨d, hd, rfl⟩ := List.mem_map.mp hv
      exact hA o' ho' hne hv' (hmsgs d hd)
  refine ⟨hholds.queue, hholds.queueBound, ?_, ?_, howner⟩
  · intro o' ho'
    rcases eq_or_ne o' o with rfl | hne
    · rw [hlist]
      exact hholds
    · exact (hkeeps o' ((hbrk o' ho').resolve_right hne) hne).1
  · intro o₁ ho₁ o₂ ho₂ hne
    rcases eq_or_ne o₁ o with rfl | hne₁
    · exact hnew o₂ ((hbrk o₂ ho₂).resolve_right hne.symm) hne.symm
    · have hlt₁ := (hbrk o₁ ho₁).resolve_right hne₁
      rcases eq_or_ne o₂ o with rfl | hne₂
      · exact ⟨(hnew o₁ hlt₁ hne₁).1.symm, (hnew o₁ hlt₁ hne₁).2.symm⟩
      · have hlt₂ := (hbrk o₂ ho₂).resolve_right hne₂
        obtain ⟨-, hheld₁, hpend₁⟩ := hkeeps o₁ hlt₁ hne₁
        obtain ⟨-, hheld₂, hpend₂⟩ := hkeeps o₂ hlt₂ hne₂
        rw [hheld₁, hheld₂, hpend₁, hpend₂]
        exact h.apart o₁ hlt₁ o₂ hlt₂ hne

/-! ### Events -/

/-- What a handler of `o` hands over, when it ends in `m`: the first message, if it has
closed the connection. -/
def lost (s : IoApp) (o : Obj) (m : Ctx Addr (AppWorld IoAppOwner)) : List Addr :=
  if (s.objs o).1.destroy = false ∧ m.conn.destroy = true then (s.pending o).take 1 else []

/-- What the thread hands over to the collector. -/
def handedOver (s : IoApp) : Event → List Addr
  | .read o fuel stream alloc script =>
    s.lost o (readHandler (appHooks (IoAppOwner.destroy o)) fuel script (s.ctx o stream alloc))
  | .write o connected sends =>
    s.lost o (writeHandler (appHooks (IoAppOwner.destroy o)) connected sends (s.ctx o [] true))
  | .timeout o => s.lost o (timeoutHandler (appHooks (IoAppOwner.destroy o)) (s.ctx o [] true))
  | .push v => if s.owner.onlineRegister.get (s.heap.msg v).conn = none then [v] else []
  | _ => []

/-- The owner of the messages keeps them apart: a message that is pushed is in no list
yet, and the rest of the program touches neither the messages that the connections
hold nor breaks the collector's queue. -/
def Separate (s : IoApp) : Event → Prop
  | .push v => v < s.heap.brk ∧ v ∉ s.collectQueue ∧ ∀ o < s.brk, v ∉ s.pending o
  | .outside H collector => ∃ Q q, collector = some Q ∧ Q.Rep H q ∧ (∀ v ∈ q, v < H.brk) ∧
      ∀ o < s.brk, s.Spared o H ∧ (s.pending o).Disjoint q
  | _ => True

noncomputable instance (s : IoApp) : ∀ e, Decidable (s.Separate e)
  | .push _ => inferInstanceAs (Decidable (_ ∧ _ ∧ _))
  | .outside _ _ => Classical.propDecidable _
  | .accept _ | .acceptElsewhere | .newConnection | .read .. | .write .. | .timeout _ =>
    inferInstanceAs (Decidable True)

theorem after_objs (s : IoApp) (o : Obj) (m : Ctx Addr (AppWorld IoAppOwner)) :
    (s.after o m).objs o = (m.conn, m.app.conn) :=
  Function.update_self ..

theorem holds_after {cur : Option Addr} {ds : List Addr} {m : Ctx Addr (AppWorld IoAppOwner)}
    (h : Holds cur m.app ds q) : Holds cur ((s.after o m).world o) ds q := by
  have hconn : ((s.after o m).world o).conn = m.app.conn := congrArg Prod.snd (s.after_objs o m)
  exact h.congr (by rw [hconn]) (by rw [hconn]) rfl (fun _ _ => rfl) (fun _ _ => rfl)
    (fun _ _ => rfl) le_rfl le_rfl

/-- What another object holds is apart from what `o` and the queue hold. -/
theorem Running.others (h : Running s q) (ho : o < s.brk) {o' : Obj} (ho' : o' < s.brk)
    (hne : o' ≠ o) :
    (s.held o').Disjoint (s.held o) ∧ (s.pending o').Disjoint (s.pending o ++ q) := by
  obtain ⟨hheld, hpend⟩ := h.apart o' ho' o ho hne
  exact ⟨hheld, List.disjoint_append_right.mpr ⟨hpend, h.queue_apart ho'⟩⟩

/-- **A handler** of a connection in use. -/
theorem Running.handled {stream : List UInt8} {alloc : Bool}
    {m : Ctx Addr (AppWorld IoAppOwner)} (h : Running s q) (ho : o < s.brk)
    (hm : Handled (s.pushList o) q (s.ctx o stream alloc) m) (howner : m.app.owner.Below s.brk) :
    Running (s.after o m) (q ++ s.lost o m) := by
  have hobj := s.after_objs o m
  have hrest : ∀ {ds q'}, s.heap.Confined (s.held o) (s.pending o ++ q) m.app.heap →
      Holds m.conn.currentPush m.app ds q' → m.conn.currentPush.toList ++ ds ⊆ s.held o →
      (∀ d ∈ m.conn.currentPush.toList ++ ds, msgOf m.app.heap d = msgOf s.heap d) →
      q' ⊆ s.pending o ++ q → Running (s.after o m) q' := by
    intro ds q' hconf hholds hheld hmsg hq
    refine h.touched ds (fun o' ho' => .inl ho') (fun o' hne => Function.update_of_ne hne ..) hconf
      (fun o' ho' hne => (h.others ho ho' hne).1) (fun o' ho' hne => (h.others ho ho' hne).2)
      (by rw [hobj]; exact holds_after hholds) ?_ ?_ hq howner
    · rw [hobj]
      exact fun d hd => .inl (hheld hd)
    · rw [hobj]
      intro d hd
      have hmem : msgOf s.heap d ∈ s.pending o := List.mem_map_of_mem (hheld hd)
      exact List.mem_append_left _ (hmsg d hd ▸ hmem)
  cases hm with
  | stays ds' hdestroy hholds hheld hmsg hconf =>
    have hlost : s.lost o m = [] := by
      refine if_neg fun hclosed => ?_
      exact absurd (hclosed.1.symm.trans (hdestroy.symm.trans hclosed.2)) (by decide)
    rw [hlost, List.append_nil]
    exact hrest hconf hholds hheld.subset (fun d _ => hmsg d) (List.subset_append_right ..)
  | closes hclosed =>
    have hlost : s.lost o m = (s.pending o).take 1 := if_pos ⟨hclosed.before, hclosed.after⟩
    have hnil : m.conn.currentPush.toList ++ [] = [] := by
      rw [hclosed.current]
      rfl
    rw [hlost]
    refine hrest hclosed.confined (hclosed.current.symm ▸ hclosed.holds) ?_ ?_ ?_
    · rw [hnil]
      exact List.nil_subset _
    · rw [hnil]
      exact fun d hd => nomatch hd
    · exact List.append_subset.mpr ⟨List.subset_append_right ..,
        List.Subset.trans (List.take_subset 1 _) (List.subset_append_left ..)⟩

/-- **A connection that is opened** finds the push list that its object has. -/
theorem Running.openConnection (h : Running s q) (sock : ℤ × ℕ) :
    Running (s.openConnection sock) q := by
  have hset : ∀ {n o : ℕ}, s.brk ≤ n → o < n →
      ∀ e ∈ s.owner.onlineRegister.set sock.2 o, e.2 < n := by
    intro n o hn ho e he
    rcases List.mem_cons.mp he with rfl | he
    · exact ho
    · exact (h.owner.registered e (ConnectionRegister.mem_unset.mp he).1).trans_le hn
  rcases s.owner.cache.get_cases with ⟨o, K, hget, hspare⟩ | hget
  · -- an object from the cache
    have ho : o < s.brk := h.owner.spare o (hspare ▸ List.mem_cons_self)
    have hholds := h.holds o ho
    simp only [IoApp.openConnection, hget, Option.getD_some]
    refine h.touched (o := o) (s.pushList o) (fun o' ho' => .inl ho')
      (fun o' hne => Function.update_of_ne hne ..) (Heap.Confined.refl ..)
      (fun o' ho' hne => (h.others ho ho' hne).1) (fun o' ho' hne => (h.others ho ho' hne).2)
      ?_ ?_ ?_ (List.subset_append_right ..) ⟨hset le_rfl ho, ?_⟩
    · rw [world, ctx]
      simp only [Function.update_self]
      exact hholds.reopen.congr rfl hholds.back.symm rfl (fun _ _ => rfl) (fun _ _ => rfl)
        (fun _ _ => rfl) le_rfl le_rfl
    · simp only [Function.update_self]
      exact fun d hd => .inl (List.mem_append_right _ hd)
    · simp only [Function.update_self]
      exact fun d hd =>
        List.mem_append_left _ (List.mem_map_of_mem (List.mem_append_right _ hd))
    · exact fun o' ho' => h.owner.spare o' (hspare ▸ List.mem_cons_of_mem _ ho')
  · -- a new object
    simp only [IoApp.openConnection, hget, Option.getD_none]
    refine h.touched (D := []) (o := s.brk) [] (fun o' ho' => Nat.lt_succ_iff_lt_or_eq.mp ho')
      (fun o' hne => ?_) (Heap.Confined.refl ..) (fun o' ho' hne => List.disjoint_nil_right _)
      (fun o' ho' hne => h.queue_apart ho') ?_ ?_ ?_ (List.Subset.refl _)
      ⟨hset (Nat.le_succ _) (Nat.lt_succ_self _), (h.owner.mono (Nat.le_succ _)).spare⟩
    · show Function.update (Function.update _ _ _) _ _ o' = _
      rw [Function.update_of_ne hne, Function.update_of_ne hne]
    · rw [world, ctx]
      simp only [Function.update_self]
      exact ⟨IoPushList.rep_empty, List.nodup_nil, (fun _ hd => nomatch hd), List.nodup_nil, rfl,
        h.queue, (fun _ hd => nomatch hd), h.bound⟩
    · simp only [Function.update_self]
      exact fun d hd => nomatch hd
    · simp only [Function.update_self]
      exact fun d hd => nomatch hd

theorem Running.newConnection (h : Running s q) : Running s.newConnection q := by
  have hfold : ∀ (socks : List (ℤ × ℕ)) {s : IoApp}, Running s q →
      Running (socks.foldl IoApp.openConnection s) q := by
    intro socks
    induction socks with
    | nil => exact fun h => h
    | cons sock socks ih => exact fun h => ih (h.openConnection sock)
  have hopened := hfold s.sockQueue (s := { s with sockQueue := [] })
    ⟨h.queue, h.bound, h.holds, h.apart, h.owner⟩
  exact hopened.spared rfl rfl (fun o _ => ⟨fun _ _ => ⟨rfl, rfl⟩, fun _ _ => rfl, le_rfl, le_rfl⟩)
    hopened.queue hopened.bound (fun o ho => hopened.queue_apart ho)
    ⟨hopened.owner.registered, hopened.owner.spare⟩

/-- A message that finds its connection is linked there. -/
theorem Running.push_found (h : Running s q) (hsep : s.Separate (.push v))
    (hget : s.owner.onlineRegister.get (s.heap.msg v).conn = some o) :
    Running (s.pushMessage v) q := by
  obtain ⟨hlt, hv, hfree⟩ := hsep
  rw [h.collectQueue_eq] at hv
  obtain ⟨l₁, l₂, hreg, -⟩ := List.lookup_eq_some_iff.mp hget
  have ho : o < s.brk :=
    h.owner.registered _ (hreg ▸ List.mem_append_right _ List.mem_cons_self)
  have hholds := h.holds o ho
  unfold pushMessage
  dsimp only
  rw [hget]
  -- the state that the message switches the connection to does not matter
  let state := if (s.heap.msg v).switchState then (s.heap.msg v).state
    else (s.ctx o [] true).app.conn.state
  have hstate : Holds (s.objs o).1.currentPush
      { s.world o with conn := { (s.world o).conn with state := state } } (s.pushList o) q :=
    hholds.congr rfl rfl rfl (fun _ _ => rfl) (fun _ _ => rfl) (fun _ _ => rfl) le_rfl le_rfl
  obtain ⟨hpush, hpend⟩ := hstate.pushMsgData hlt (hfree o ho) hv
  have hcur := setWrite_currentPush (s.objs o).1
  have hconf := hstate.pushMsgData_confined v
  have hA : s.pending o ++ [v] ⊆ s.pending o ++ v :: q :=
    List.append_subset.mpr ⟨List.subset_append_left .., by simp⟩
  refine h.touched (o := o) (s.pushList o ++ [s.heap.pdBrk]) (fun o' ho' => .inl ho')
    (fun o' hne => Function.update_of_ne hne ..) (hconf.mono (List.Subset.refl _) hA)
    (fun o' ho' hne => (h.others ho ho' hne).1) (fun o' ho' hne => ?_) ?_ ?_ ?_ ?_ h.owner
  · have hrest := (h.others ho ho' hne).2
    rw [List.disjoint_append_right] at hrest ⊢
    exact ⟨hrest.1, List.disjoint_cons_right.mpr ⟨hfree o' ho', hrest.2⟩⟩
  · rw [after_objs]
    show Holds (s.objs o).1.setWrite.currentPush _ _ _
    rw [hcur]
    exact holds_after hpush
  · rw [after_objs]
    show ∀ d ∈ (s.objs o).1.setWrite.currentPush.toList ++ _, _
    rw [hcur, ← List.append_assoc]
    intro d hd
    exact (List.mem_append.mp hd).imp_right fun hd => (List.mem_singleton.mp hd).ge
  · rw [after_objs]
    show ∀ d ∈ (s.objs o).1.setWrite.currentPush.toList ++ _, _
    rw [hcur]
    intro d hd
    exact hA (hpend ▸ List.mem_map_of_mem hd)
  · exact fun u hu => List.mem_append_right _ (List.mem_cons_of_mem _ hu)

/-- One that does not find it goes to the collector. -/
theorem Running.push_gone (h : Running s q) (hsep : s.Separate (.push v))
    (hgone : s.owner.onlineRegister.get (s.heap.msg v).conn = none) :
    Running (s.pushMessage v) (q ++ [v]) := by
  obtain ⟨Q, hQ, hrep⟩ := h.queue
  obtain ⟨hlt, hv, hfree⟩ := hsep
  rw [h.collectQueue_eq] at hv
  have hdisj : ∀ o < s.brk, (s.pending o).Disjoint (v :: q) := fun o ho =>
    List.disjoint_cons_right.mpr ⟨hfree o ho, h.queue_apart ho⟩
  have hput : s.pushMessage v =
      { s with collector := some (Q.put v s.heap).1, heap := (Q.put v s.heap).2 } := by
    unfold pushMessage
    dsimp only
    rw [hgone, hQ]
  rw [hput]
  refine h.spared rfl rfl (fun o ho => ?_) ⟨_, rfl, hrep.put hv⟩ ?_ ?_ h.owner
  · exact h.spared_of_confined ho (hrep.put_confined hv) (List.disjoint_nil_right _) (hdisj o ho)
  · intro u hu
    rcases List.mem_append.mp hu with hu | hu
    · exact h.bound u hu
    · exact (List.mem_singleton.mp hu).symm ▸ hlt
  · intro o ho u hu hmem
    refine hdisj o ho hu ?_
    simpa [or_comm] using hmem

/-- What the thread does itself. -/
def Own : Event → Prop
  | .outside _ _ => False
  | _ => True

instance : ∀ e, Decidable (Own e)
  | .outside _ _ => inferInstanceAs (Decidable False)
  | .accept _ | .acceptElsewhere | .newConnection | .read .. | .write .. | .timeout _ | .push _ =>
    inferInstanceAs (Decidable True)

/-- **Every event keeps the invariant**, and the thread adds to the queue what it hands
over. -/
theorem Running.step {e : Event} (h : Running s q) (hsep : s.Separate e)
    (hstep : s.step e = some s') :
    ∃ q', Running s' q' ∧ (Own e → q' = q ++ s.handedOver e) := by
  obtain ⟨-, hhappens⟩ := step_happens hstep
  cases hhappens with
  | accept fd =>
    exact ⟨q, ⟨h.queue, h.bound, h.holds, h.apart, h.owner⟩, fun _ => (List.append_nil q).symm⟩
  | acceptElsewhere =>
    exact ⟨q, ⟨h.queue, h.bound, h.holds, h.apart, h.owner⟩, fun _ => (List.append_nil q).symm⟩
  | newConnection => exact ⟨q, h.newConnection, fun _ => (List.append_nil q).symm⟩
  | @read o ho fuel stream alloc script =>
    refine ⟨_, h.handled ho (readHandler_handled _ fuel script (h.holds o ho)) ?_, fun _ => rfl⟩
    exact ((belowRule ho).read fun hcall hbelow =>
      (AppWorld.whenReceivedFrame_owner hcall).1.symm ▸ hbelow).readHandler fuel script _ h.owner
  | @write o ho connected sends =>
    refine ⟨_, h.handled ho (writeHandler_handled _ connected sends (h.holds o ho)) ?_,
      fun _ => rfl⟩
    exact (belowRule ho).write.writeHandler connected sends _ h.owner
  | @timeout o ho =>
    refine ⟨_, h.handled ho (timeoutHandler_handled _ (h.holds o ho)) ?_, fun _ => rfl⟩
    exact (belowRule ho).write.timeoutHandler _ h.owner
  | push v =>
    rcases hget : s.owner.onlineRegister.get (s.heap.msg v).conn with - | o
    · exact ⟨_, h.push_gone hsep hget, fun _ => congrArg (q ++ ·) (if_pos hget).symm⟩
    · refine ⟨q, h.push_found hsep hget, fun _ => ?_⟩
      have hnone : s.handedOver (.push v) = [] := if_neg (by rw [hget]; nofun)
      rw [hnone, List.append_nil]
  | outside H collector =>
    obtain ⟨Q, q', hQ, hrep, hbound, hothers⟩ := hsep
    exact ⟨q', h.spared rfl rfl (fun o ho => (hothers o ho).1) ⟨Q, hQ, hrep⟩ hbound
      (fun o ho => (hothers o ho).2) h.owner, fun hown => hown.elim⟩

/-! ### Runs -/

/-- What the thread puts into the collector's queue at this event has the bit. -/
def Respects (s : IoApp) (e : Event) : Prop :=
  Own e → ∀ s' ∈ s.step e, Flagged s.heap s.collectQueue s'.collectQueue

instance (s : IoApp) (e : Event) : Decidable (s.Respects e) :=
  inferInstanceAs (Decidable (_ → ∀ s' ∈ s.step e, _))

/-- What it hands over has the bit. -/
def Worthy (s : IoApp) (e : Event) : Prop :=
  ∀ v ∈ s.handedOver e, (s.heap.msg v).needCollect = true

instance (s : IoApp) (e : Event) : Decidable (s.Worthy e) :=
  inferInstanceAs (Decidable (∀ v ∈ s.handedOver e, _))

theorem Running.respects_iff {e : Event} (h : Running s q) (hsep : s.Separate e)
    (hstep : s.step e = some s') : s.Respects e ↔ s.Worthy e := by
  obtain ⟨q', hrun, hq⟩ := h.step hsep hstep
  by_cases hown : Own e
  · have hadd := hq hown
    obtain ⟨Q, -, hrep⟩ := hrun.queue
    have hfresh : ∀ v ∈ s.handedOver e, v ∉ q := by
      have hnodup := hrep.1.nodup
      rw [hadd] at hnodup
      exact fun v hv hmem => (List.nodup_append.mp hnodup).2.2 v hmem v hv rfl
    have hflag := flagged_append (H := s.heap) hfresh
    rw [← hadd, ← hrun.collectQueue_eq, ← h.collectQueue_eq] at hflag
    refine Iff.trans ?_ hflag
    exact ⟨fun hr => hr hown s' hstep,
      fun hf _ t ht => Option.some.inj (hstep.symm.trans ht) ▸ hf⟩
  · have hnone : s.handedOver e = [] := by
      cases e with
      | outside H collector => rfl
      | _ => exact absurd trivial hown
    refine iff_of_true (fun h' => absurd h' hown) ?_
    rw [Worthy, hnone]
    exact fun v hv => nomatch hv

theorem running_new (id : ℤ) (limits : ℤ × ℤ × ℤ) (H : Heap) (clock : ℕ → ℤ) :
    Running (IoApp.new id limits H (some MsMessageBlockQueue.empty) clock) [] :=
  ⟨⟨_, rfl, MsMessageBlockQueue.rep_empty⟩, (fun _ hv => nomatch hv),
    fun _ ho => absurd ho (Nat.not_lt_zero _), fun _ ho => absurd ho (Nat.not_lt_zero _),
    (fun _ he => nomatch he), fun _ ho => nomatch ho⟩

/-- **The two ways to the collector.**  In a run of an IO thread, everything that the
thread puts into the collector's queue has the bit exactly if every message that it
pushes to a connection that is not registered has the bit, and so has the first
pending message of every connection that it closes. -/
theorem collected_flagged_iff (id : ℤ) (limits : ℤ × ℤ × ℤ) (H : Heap) (clock : ℕ → ℤ)
    (es : List Event)
    (hsep : Guarded IoApp.step Separate
      (IoApp.new id limits H (some MsMessageBlockQueue.empty) clock) es) :
    Guarded IoApp.step Respects (IoApp.new id limits H (some MsMessageBlockQueue.empty) clock) es ↔
      Guarded IoApp.step Worthy (IoApp.new id limits H (some MsMessageBlockQueue.empty) clock) es :=
  Guarded.congr (I := fun s => ∃ q, Running s q)
    (fun _ _ _ ⟨_, h⟩ hk hs => (h.step hk hs).imp fun _ h' => h'.1)
    (fun _ _ _ ⟨_, h⟩ hk hs => h.respects_iff hk hs) ⟨[], running_new id limits H clock⟩ hsep

/-- Message 0 is for a connection that is gone, and messages 1 and 2 are for
connection 1; the first `n` have the bit `_need_collect`. -/
def threeReplies (n : ℕ) : Heap :=
  { Heap.empty with
    msg := fun a => { createIMessage [] 0 with
      uid := 7, conn := if a = 0 then 3 else 1, needCollect := decide (a < n) }
    brk := 3 }

/-- A thread that starts with these messages. -/
def replying (n : ℕ) : IoApp :=
  IoApp.new 0 (9, 9, 9) (threeReplies n) (some MsMessageBlockQueue.empty) fun _ => 0

/-- Message 0 does not find its connection, and connection 1 times out when it has
written none of the other two. -/
def bothWays : List Event :=
  [.accept 5, .newConnection, .push 0, .push 1, .push 2, .timeout 0]

/-- Messages 0 and 1 have the bit and are collected; message 2, which has not, is
pending behind message 1, and is not. -/
theorem collected_flagged_bothWays :
    Guarded IoApp.step Separate (replying 2) bothWays ∧
      Guarded IoApp.step Respects (replying 2) bothWays ∧
      (runEvents IoApp.step (replying 2) bothWays).map collectQueue = some [0, 1] := by
  have hsep : Guarded IoApp.step Separate (replying 2) bothWays := by decide +kernel
  have hworthy : Guarded IoApp.step Worthy (replying 2) bothWays := by decide +kernel
  exact ⟨hsep, (collected_flagged_iff 0 (9, 9, 9) (threeReplies 2) (fun _ => 0) bothWays
    hsep).mpr hworthy, by decide +kernel⟩

/-- **Messages without the bit are collected**: one that is pushed when its
connection is gone, and one that is pending when its connection times out. -/
theorem collected_unflagged :
    (∀ v < 3, ((threeReplies 0).msg v).needCollect = false) ∧
    Guarded IoApp.step Separate (replying 0) bothWays ∧
    (runEvents IoApp.step (replying 0) [.accept 5, .newConnection, .push 0]).map collectQueue =
      some [0] ∧
    (runEvents IoApp.step (replying 0)
      [.accept 5, .newConnection, .push 1, .timeout 0]).map collectQueue = some [1] := by
  decide +kernel

end IoApp

end Xkim
