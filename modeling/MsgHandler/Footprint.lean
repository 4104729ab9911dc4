/-
MsgHandler/Footprint.lean

What a handler of one connection touches.

All connections of an IO thread, and the collector, keep their messages in the
same memory, so that what one of them writes could be a link of another.  It never
is: a handler writes the push data that its connection holds, the links of their
messages, and those of the collector's queue (`Heap.Confined`).

`Handled` says what has become of the messages after a handler.  Either the
connection is as open as before, and holds an end piece of what it held, since it
has only written from the front; or the handler has closed it, and the first of its
messages is now the last one in the queue.
-/
import MsgHandler.Pending

namespace Xkim

open IoPushList (msgOf)

/-! ### Memory -/

/-- Of the memory in use only the push data `D` and the links of the messages `A`
are written. -/
structure Heap.Confined (D A : List Addr) (H H' : Heap) : Prop where
  pd : ∀ d < H.pdBrk, d ∉ D → H'.pd d = H.pd d ∧ H'.pdNext d = H.pdNext d
  next : ∀ v < H.brk, v ∉ A → H'.next v = H.next v
  pdBrk : H.pdBrk ≤ H'.pdBrk
  brk : H.brk ≤ H'.brk

theorem Heap.Confined.refl (D A : List Addr) (H : Heap) : H.Confined D A H :=
  ⟨fun _ _ _ => ⟨rfl, rfl⟩, fun _ _ _ => rfl, le_rfl, le_rfl⟩

theorem Heap.Confined.trans {D D' A A' : List Addr} {H H' H'' : Heap} (h : H.Confined D A H')
    (h' : H'.Confined D' A' H'') (hD : D' ⊆ D) (hA : A' ⊆ A) : H.Confined D A H'' := by
  refine ⟨fun d hd hno => ?_, fun v hv hno => ?_, h.pdBrk.trans h'.pdBrk, h.brk.trans h'.brk⟩
  · obtain ⟨hpd, hnext⟩ := h.pd d hd hno
    obtain ⟨hpd', hnext'⟩ := h'.pd d (hd.trans_le h.pdBrk) fun hmem => hno (hD hmem)
    exact ⟨hpd'.trans hpd, hnext'.trans hnext⟩
  · exact (h'.next v (hv.trans_le h.brk) fun hmem => hno (hA hmem)).trans (h.next v hv hno)

theorem Heap.Confined.mono {D D' A A' : List Addr} {H H' : Heap} (h : H.Confined D A H')
    (hD : D ⊆ D') (hA : A ⊆ A') : H.Confined D' A' H' :=
  (Heap.Confined.refl D' A' H).trans h hD hA

/-- `put` writes the link of the message and that of the last one in the queue. -/
theorem MsMessageBlockQueue.Rep.put_confined {Q : MsMessageBlockQueue} {H : Heap} {q : List Addr}
    (h : Q.Rep H q) {v : Addr} (hv : v ∉ q) : H.Confined [] (v :: q) (Q.put v H).2 := by
  refine ⟨fun _ _ _ => ⟨rfl, rfl⟩, fun a _ ha => ?_, le_rfl, le_rfl⟩
  rw [List.mem_cons, not_or] at ha
  obtain ⟨hne, hmem⟩ := ha
  have hattach : (Q.put v H).2.next a = (H.setNext v none).next a :=
    Links.attach_of_not_mem (h.1.update hv) hmem
  exact hattach.trans (Function.update_of_ne hne ..)

theorem IoPushList.putFirst_confined (L : IoPushList) (d : Addr) (H : Heap) :
    H.Confined [d] [msgOf H d] (L.putFirst d H).2 := by
  have hpd : (L.putFirst d H).2.pdNext = Function.update H.pdNext d L.links.head ∧
      (L.putFirst d H).2.pdBrk = H.pdBrk := by
    unfold IoPushList.putFirst
    dsimp only
    split <;> exact ⟨rfl, rfl⟩
  refine ⟨fun e _ he => ⟨congrFun IoPushList.putFirst_pd.1 e, ?_⟩, fun v _ hv => ?_, hpd.2.ge,
    IoPushList.putFirst_pd.2.ge⟩
  · rw [hpd.1]
    exact Function.update_of_ne (by simpa using he) ..
  · exact IoPushList.putFirst_next_of_ne (by simpa using hv)

/-- `put` writes the push datum and the last one of the list, and the links of their
messages. -/
theorem IoPushList.Rep.put_confined {L : IoPushList} {H : Heap} {ds : List Addr} {d : Addr}
    (h : L.Rep H ds) (hd : d ∉ ds) :
    H.Confined (d :: ds) ((ds ++ [d]).map (msgOf H)) (L.put d H).2 := by
  refine ⟨fun e _ he => ⟨rfl, ?_⟩, fun v _ hv => h.put_next hv, le_rfl, le_rfl⟩
  rw [List.mem_cons, not_or] at he
  have hattach : (L.put d H).2.pdNext e = Function.update H.pdNext d none e :=
    Links.attach_of_not_mem (h.links.update hd) he.2
  exact hattach.trans (Function.update_of_ne he.1 ..)

variable {ω : Type} {cur : Option Addr} {w w' : AppWorld ω} {ds q : List Addr}

/-! ### The members of a connection -/

/-- A connection that is opened again holds the push list that the object has. -/
theorem Holds.reopen (h : Holds cur w ds q) : Holds none w ds q := by
  have hmem : ∀ d ∈ ds, d ∈ cur.toList ++ ds := fun d hd => List.mem_append_right _ hd
  have hsub : (none.toList ++ ds).Sublist (cur.toList ++ ds) := List.sublist_append_right ..
  exact ⟨h.list, h.nodup.sublist hsub, fun d hd => h.bound d (hmem d hd),
    h.msgs.sublist (hsub.map _), h.back, h.queue, fun d hd => h.apart d (hmem d hd),
    h.queueBound⟩

/-- The push datum of a message that is pushed is in fresh memory. -/
theorem Holds.pushMsgData_confined (h : Holds cur w ds q) (v : Addr) :
    w.heap.Confined (cur.toList ++ ds) (Holds.pending cur w ds ++ [v]) (w.pushMsgData v).heap := by
  have hnew : w.heap.Confined [w.heap.pdBrk] [] (w.newDatum v).heap :=
    ⟨fun d _ hd => ⟨Function.update_of_ne (by simpa using hd) ..,
      Function.update_of_ne (by simpa using hd) ..⟩, fun _ _ _ => rfl, Nat.le_succ _, le_rfl⟩
  have hlist := (h.newDatum v).1.list
  have hfresh : w.heap.pdBrk ∉ ds :=
    fun hd => absurd (h.bound _ (List.mem_append_right _ hd)).1 (lt_irrefl _)
  have hput := hlist.put_confined hfresh
  have hmsgs : (ds ++ [w.heap.pdBrk]).map (msgOf (w.newDatum v).heap) =
      ds.map (msgOf w.heap) ++ [v] := by
    rw [List.map_append, List.map_singleton, newDatum_msgOf]
    refine congrArg (· ++ [v]) (List.map_congr_left fun d hd => ?_)
    have hne : d ≠ w.heap.pdBrk := fun heq => hfresh (heq ▸ hd)
    exact congrArg IoPushData.msg (Function.update_of_ne hne ..)
  rw [hmsgs] at hput
  have hfirst : [w.heap.pdBrk] ⊆ w.heap.pdBrk :: ds :=
    List.cons_subset.mpr ⟨List.mem_cons_self, List.nil_subset _⟩
  have hall := (hnew.mono hfirst (List.nil_subset _)).trans hput (List.Subset.refl _)
    (List.Subset.refl _)
  refine ⟨fun d hlt hd => hall.pd d hlt ?_, fun a hlt ha => hall.next a hlt ?_, hall.pdBrk,
    hall.brk⟩
  · rw [List.mem_cons, not_or]
    exact ⟨hlt.ne, fun hmem => hd (List.mem_append_right _ hmem)⟩
  · intro hmem
    refine ha ((List.mem_append.mp hmem).elim (fun hmem => ?_) (List.mem_append_right _))
    obtain ⟨d, hd, rfl⟩ := List.mem_map.mp hmem
    exact List.mem_append_left _ (List.mem_map_of_mem (List.mem_append_right _ hd))

/-- A frame that is received is in fresh memory. -/
theorem whenReceivedFrame_confined {mem : List UInt8} {b size r : ℤ}
    (hcall : AppWorld.whenReceivedFrame mem b size w = some (r, w')) :
    w.heap.Confined [] [] w'.heap := by
  rcases AppWorld.whenReceivedFrame_cases hcall with ⟨-, rfl | rfl⟩ | ⟨-, -, -, -, rfl⟩
  · exact Heap.Confined.refl ..
  · exact Heap.Confined.refl ..
  · exact ⟨fun _ _ _ => ⟨rfl, rfl⟩, fun v hv _ => Function.update_of_ne hv.ne .., le_rfl,
      Nat.le_succ _⟩

theorem Holds.getPushData_confined {d : Addr} (h : Holds none w (d :: ds) q) :
    w.heap.Confined [d] [msgOf w.heap d] w.getPushData.2.heap := by
  have hhead : w.conn.pushBuffer.links.head = some d := h.list.links.head_eq
  simp only [AppWorld.getPushData, IoPushList.get, hhead]
  refine ⟨fun e _ he => ⟨rfl, ?_⟩, fun v _ hv => ?_, le_rfl, le_rfl⟩
  · exact Function.update_of_ne (by simpa using he) ..
  · exact Function.update_of_ne (by simpa using hv) ..

theorem setWpos_confined (p : Addr) (n : ℤ) (w : AppWorld ω) :
    w.heap.Confined [p] [] (AppWorld.setWpos p n w).heap :=
  ⟨fun _ _ hd => ⟨Function.update_of_ne (by simpa using hd) .., rfl⟩, fun _ _ _ => rfl, le_rfl,
    le_rfl⟩

theorem Holds.handOver_confined (h : Holds none w ds q) :
    w.heap.Confined ds (Holds.pending none w ds ++ q) w.handOver.heap := by
  cases ds with
  | nil =>
    rw [h.handOver_nil]
    exact Heap.Confined.refl ..
  | cons d ds =>
    obtain ⟨Q, freed, hq, hhand⟩ := h.handOver_cons
    have hput := hq.put_confined (h.apart d List.mem_cons_self)
    rw [hhand]
    refine Heap.Confined.mono ⟨hput.pd, hput.next, hput.pdBrk, hput.brk⟩ (List.nil_subset _) ?_
    exact List.cons_subset.mpr ⟨List.mem_cons_self, List.subset_append_right ..⟩

theorem Holds.teardown_confined (destroy : ℕ → ω → ω) (reset : Bool) {m : Ctx Addr (AppWorld ω)}
    (h : Holds m.conn.currentPush m.app ds q) :
    m.app.heap.Confined (m.conn.currentPush.toList ++ ds)
      (Holds.pending m.conn.currentPush m.app ds ++ q)
      (teardown (appHooks destroy) reset m).app.heap := by
  unfold teardown
  rcases hp : m.conn.currentPush with - | p
  · rw [hp] at h
    show m.app.heap.Confined _ _ m.app.takeBack.handOver.heap
    rw [h.takeBack_none]
    exact h.handOver_confined
  · rw [hp] at h
    obtain ⟨hback, hpend⟩ := h.takeBack
    have hfirst := m.app.conn.pushBuffer.putFirst_confined p m.app.heap
    have hhand := hback.handOver_confined
    rw [hpend] at hhand
    have hD : [p] ⊆ p :: ds := List.cons_subset.mpr ⟨List.mem_cons_self, List.nil_subset _⟩
    have hA : [msgOf m.app.heap p] ⊆ Holds.pending (some p) m.app ds ++ q :=
      List.cons_subset.mpr ⟨List.mem_cons_self, List.nil_subset _⟩
    exact (hfirst.mono hD hA).trans hhand (List.Subset.refl _) (List.Subset.refl _)

/-! ### Handlers -/

/-- The connection has been closed, and the first of its messages is in the queue. -/
structure Closed (ds q : List Addr) (m m' : Ctx Addr (AppWorld ω)) : Prop where
  before : m.conn.destroy = false
  after : m'.conn.destroy = true
  current : m'.conn.currentPush = none
  holds : Holds none m'.app [] (q ++ (Holds.pending m.conn.currentPush m.app ds).take 1)
  confined : m.app.heap.Confined (m.conn.currentPush.toList ++ ds)
    (Holds.pending m.conn.currentPush m.app ds ++ q) m'.app.heap

/-- What has become of the messages `ds` of a connection, with the collector's queue
`q`, after a handler. -/
inductive Handled (ds q : List Addr) (m m' : Ctx Addr (AppWorld ω)) : Prop
  | stays (ds' : List Addr) (hdestroy : m'.conn.destroy = m.conn.destroy)
      (hholds : Holds m'.conn.currentPush m'.app ds' q)
      (hheld : m'.conn.currentPush.toList ++ ds' <:+ m.conn.currentPush.toList ++ ds)
      (hmsg : ∀ d, msgOf m'.app.heap d = msgOf m.app.heap d)
      (hconfined : m.app.heap.Confined (m.conn.currentPush.toList ++ ds)
        (Holds.pending m.conn.currentPush m.app ds ++ q) m'.app.heap)
  | closes (h : Closed ds q m m')

section Handlers

variable (destroy : ℕ → ω → ω) {m m' m₁ : Ctx Addr (AppWorld ω)} {p : Addr}

theorem Handled.refl (h : Holds m.conn.currentPush m.app ds q) : Handled ds q m m :=
  .stays ds rfl h List.suffix_rfl (fun _ => rfl) (Heap.Confined.refl ..)

theorem closed_teardown (reset : Bool) (hlive : m.conn.destroy = false)
    (h : Holds m.conn.currentPush m.app ds q) :
    Closed ds q m (teardown (appHooks destroy) reset m) :=
  ⟨hlive, rfl, rfl, h.after_teardown destroy reset, h.teardown_confined destroy reset⟩

/-- Something that leaves the messages as they are may come before. -/
theorem Handled.before {ds₁ : List Addr} (hdestroy : m₁.conn.destroy = m.conn.destroy)
    (hheld : m₁.conn.currentPush.toList ++ ds₁ = m.conn.currentPush.toList ++ ds)
    (hmsg : ∀ d, msgOf m₁.app.heap d = msgOf m.app.heap d)
    (hconfined : m.app.heap.Confined (m.conn.currentPush.toList ++ ds)
      (Holds.pending m.conn.currentPush m.app ds ++ q) m₁.app.heap)
    (h : Handled ds₁ q m₁ m') : Handled ds q m m' := by
  have hpend : Holds.pending m₁.conn.currentPush m₁.app ds₁ =
      Holds.pending m.conn.currentPush m.app ds := by
    unfold Holds.pending
    rw [hheld]
    exact List.map_congr_left fun d _ => hmsg d
  cases h with
  | stays ds' hd hholds hsuffix hmsg' hconf =>
    rw [hheld] at hsuffix hconf
    rw [hpend] at hconf
    exact .stays ds' (hd.trans hdestroy) hholds hsuffix (fun d => (hmsg' d).trans (hmsg d))
      (hconfined.trans hconf (List.Subset.refl _) (List.Subset.refl _))
  | closes h =>
    have hconf := h.confined
    have hholds := h.holds
    rw [hheld, hpend] at hconf
    rw [hpend] at hholds
    exact .closes ⟨hdestroy.symm.trans h.before, h.after, h.current, hholds,
      hconfined.trans hconf (List.Subset.refl _) (List.Subset.refl _)⟩

/-! #### Reading -/

/-- A read event leaves the messages as they are, or closes the connection. -/
def ReadKept (m m' : Ctx Addr (AppWorld ω)) : Prop :=
  ∀ ds q, Holds m.conn.currentPush m.app ds q →
    (m.conn.destroy = true → m.conn.currentPush = none ∧ ds = []) →
    (m'.conn.destroy = m.conn.destroy ∧ m'.conn.currentPush = m.conn.currentPush ∧
      Holds m.conn.currentPush m'.app ds q ∧ (∀ d, msgOf m'.app.heap d = msgOf m.app.heap d) ∧
      m.app.heap.Confined [] [] m'.app.heap) ∨ Closed ds q m m'

theorem ReadKept.of_eq (hconn : m'.conn.destroy = m.conn.destroy)
    (hcur : m'.conn.currentPush = m.conn.currentPush) (happ : m'.app = m.app) :
    ReadKept m m' := by
  intro ds q h _
  rw [happ]
  exact .inl ⟨hconn, hcur, h, fun _ => rfl, Heap.Confined.refl ..⟩

theorem ReadKept.trans (h₁ : ReadKept m m₁) (h₂ : ReadKept m₁ m') : ReadKept m m' := by
  intro ds q h hidle
  rcases h₁ ds q h hidle with ⟨hd, hcur, hholds, hmsg, hconf⟩ | hclosed
  · rw [← hcur] at hholds hidle
    rw [← hd] at hidle
    have hpend : Holds.pending m₁.conn.currentPush m₁.app ds =
        Holds.pending m.conn.currentPush m.app ds := by
      rw [hcur]
      exact List.map_congr_left fun d _ => hmsg d
    rcases h₂ ds q hholds hidle with ⟨hd', hcur', hholds', hmsg', hconf'⟩ | hclosed
    · rw [hcur] at hholds' hcur'
      exact .inl ⟨hd'.trans hd, hcur', hholds', fun d => (hmsg' d).trans (hmsg d),
        hconf.trans hconf' (List.Subset.refl _) (List.Subset.refl _)⟩
    · obtain ⟨hbefore, hafter, hnone, hholds', hconf'⟩ := hclosed
      rw [hpend] at hholds' hconf'
      rw [hcur] at hconf'
      exact .inr ⟨hd.symm.trans hbefore, hafter, hnone, hholds',
        (hconf.mono (List.nil_subset _) (List.nil_subset _)).trans hconf' (List.Subset.refl _)
          (List.Subset.refl _)⟩
  · -- the connection is closed, and holds nothing
    obtain ⟨hbefore, hafter, hnone, hholds, hconf⟩ := hclosed
    rw [← hnone] at hholds
    rcases h₂ [] _ hholds fun _ => ⟨hnone, rfl⟩ with ⟨hd', hcur', hholds', -, hconf'⟩ | hclosed
    · rw [hnone] at hholds' hcur'
      exact .inr ⟨hbefore, hd'.trans hafter, hcur', hholds',
        hconf.trans hconf' (List.nil_subset _) (List.nil_subset _)⟩
    · exact absurd (hafter.symm.trans hclosed.before) (by decide)

theorem readKeptRule : ReadRule (appHooks destroy) ReadKept where
  refl _ := .of_eq rfl rfl rfl
  trans := .trans
  recv hpost := .of_eq (by rw [hpost.conn]) (by rw [hpost.conn]) hpost.app
  frame b size m := by
    intro ds q h _
    have hconn := (callFrame_conn (appHooks destroy) b size m).1
    refine .inl ⟨by rw [hconn], by rw [hconn], ?_⟩
    rcases callFrame_app (appHooks destroy) b size m with happ | ⟨r, happ⟩
    · rw [happ]
      exact ⟨h, fun _ => rfl, Heap.Confined.refl ..⟩
    · refine ⟨h.whenReceivedFrame happ, fun d => ?_, whenReceivedFrame_confined happ⟩
      rcases AppWorld.whenReceivedFrame_cases happ with ⟨-, hw | hw⟩ | ⟨-, -, -, -, hw⟩
      all_goals
        have hheap := congrArg (fun w : AppWorld ω => msgOf w.heap d) hw
        exact hheap
  buffer _ _ hc := .of_eq hc.destroy hc.currentPush rfl
  script _ _ := .of_eq rfl rfl rfl
  halt _ := .of_eq rfl rfl rfl
  teardown reset m := by
    intro ds q h hidle
    cases hd : m.conn.destroy with
    | false => exact .inr (closed_teardown destroy reset hd h)
    | true =>
      -- a second teardown finds nothing
      obtain ⟨hcur, rfl⟩ := hidle hd
      rw [hcur] at h ⊢
      have happ : (teardown (appHooks destroy) reset m).app =
          (appHooks destroy).whenDestroy m.app := by
        unfold teardown
        rw [hcur]
        show (appHooks destroy).whenDestroy m.app.takeBack.handOver = _
        rw [h.takeBack_none, h.handOver_nil]
      rw [happ]
      exact .inl ⟨rfl, rfl, ⟨h.list, h.nodup, h.bound, h.msgs, h.back, h.queue, h.apart,
        h.queueBound⟩, fun _ => rfl, Heap.Confined.refl ..⟩

/-- **A read event.** -/
theorem readHandler_handled (fuel : ℕ) (script : List RecvChoice)
    (h : Holds m.conn.currentPush m.app ds q) :
    Handled ds q m (readHandler (appHooks destroy) fuel script m) := by
  cases hd : m.conn.destroy with
  | true =>
    rw [readHandler_destroyed fuel hd]
    exact .refl h
  | false =>
    rcases (readKeptRule destroy).readHandler fuel script m ds q h (by rw [hd]; nofun) with
      ⟨hd', hcur, hholds, hmsg, hconf⟩ | hclosed
    · refine .stays ds hd' (hcur.symm ▸ hholds) ?_ hmsg
        (hconf.mono (List.nil_subset _) (List.nil_subset _))
      rw [hcur]
    · exact .closes hclosed

/-! #### Writing -/

/-- The next push datum to be written is the first of the list. -/
theorem nextPush_holds (m : Ctx Addr (AppWorld ω)) (h : Holds none m.app ds q) :
    (nextPush (appHooks destroy) m).conn.destroy = m.conn.destroy ∧
      (∀ d, msgOf (nextPush (appHooks destroy) m).app.heap d = msgOf m.app.heap d) ∧
      m.app.heap.Confined ds (Holds.pending none m.app ds)
        (nextPush (appHooks destroy) m).app.heap ∧
      ∃ ds', Holds (nextPush (appHooks destroy) m).conn.currentPush
          (nextPush (appHooks destroy) m).app ds' q ∧
        (nextPush (appHooks destroy) m).conn.currentPush.toList ++ ds' = ds := by
  cases ds with
  | nil =>
    rw [nextPush_none destroy h.getPushData_nil]
    exact ⟨rfl, fun _ => rfl, Heap.Confined.refl .., [], h, rfl⟩
  | cons d ds =>
    obtain ⟨hget, hholds, -, -⟩ := h.getPushData
    obtain ⟨next, pdNext, hheap⟩ := m.app.getPushData_heap
    rw [nextPush_some destroy hget]
    refine ⟨rfl, fun e => ?_, h.getPushData_confined.mono ?_ ?_, ds, hholds, rfl⟩
    · show msgOf m.app.getPushData.2.heap e = _
      rw [hheap]
    · exact List.cons_subset.mpr ⟨List.mem_cons_self, List.nil_subset _⟩
    · exact List.cons_subset.mpr ⟨List.mem_cons_self, List.nil_subset _⟩

/-- A message that has been written completely is released. -/
theorem finish_handled (hp : m.conn.currentPush = some p) (h : Holds (some p) m.app ds q) :
    Handled ds q m
      (nextPush (appHooks destroy) { m with app := AppWorld.destroyMsgData p m.app }) := by
  obtain ⟨hd, hmsg, hconf, ds', hholds, hheld⟩ := nextPush_holds destroy
    { m with app := AppWorld.destroyMsgData p m.app } h.destroyMsgData
  refine .stays ds' hd hholds ?_ hmsg ?_
  · rw [hheld, hp]
    exact List.suffix_cons p ds
  · have hstart : m.app.heap.Confined (m.conn.currentPush.toList ++ ds)
        (Holds.pending m.conn.currentPush m.app ds ++ q)
        (AppWorld.destroyMsgData p m.app).heap :=
      ⟨fun _ _ _ => ⟨rfl, rfl⟩, fun _ _ _ => rfl, le_rfl, le_rfl⟩
    rw [hp] at hstart ⊢
    refine hstart.trans hconf (List.subset_cons_self p ds) ?_
    exact List.Subset.trans (List.subset_cons_self _ _) (List.subset_append_left _ q)

/-- `_wpos` moves on. -/
theorem setWpos_handled (k : ℤ) (bytes : List UInt8) (hp : m.conn.currentPush = some p)
    (hnext : Handled ds q { m.log (.send bytes) with app := AppWorld.setWpos p k m.app } m') :
    Handled ds q m m' := by
  refine Handled.before ?_ ?_ (msgOf_setWpos p k m.app) ?_ hnext
  · rfl
  · rfl
  · refine (setWpos_confined p k m.app).mono ?_ (List.nil_subset _)
    rw [hp]
    exact List.cons_subset.mpr ⟨List.mem_cons_self, List.nil_subset _⟩

theorem sendLoop_handled (cs : List SendChoice) (hlive : m.conn.destroy = false)
    (hp : m.conn.currentPush = some p) (h : Holds (some p) m.app ds q) :
    Handled ds q m (sendLoop (appHooks destroy) p cs m) := by
  have hstay : Handled ds q m m := .refl (hp.symm ▸ h)
  have hfinish := finish_handled destroy hp h
  induction cs with
  | nil =>
    unfold sendLoop
    dsimp only
    split
    · exact hstay
    · split
      · exact hfinish
      · exact hstay
  | cons c cs ih =>
    unfold sendLoop
    dsimp only
    split
    · cases c with
      | eintr => exact ih
      | eagain | zero => exact hstay
      | error => exact .closes (closed_teardown destroy true hlive (hp.symm ▸ h))
      | put n =>
        have hset := (h.setWpos ((AppWorld.view p m.app).wpos +
          (min (n + 1) ((AppWorld.view p m.app).wsize - (AppWorld.view p m.app).wpos).toNat : ℕ))).1
        dsimp only
        split
        · exact setWpos_handled _ _ hp (finish_handled destroy hp hset)
        · exact setWpos_handled _ _ hp (.refl (hp.symm ▸ hset))
    · split
      · exact hfinish
      · exact hstay

theorem writeCurrent_handled (sends : List SendChoice) (hlive : m.conn.destroy = false)
    (h : Holds m.conn.currentPush m.app ds q) :
    Handled ds q m (writeCurrent (appHooks destroy) sends m) := by
  unfold writeCurrent
  split
  · exact .refl h
  · rename_i p hp
    split
    · exact .closes (closed_teardown destroy true hlive h)
    · exact sendLoop_handled destroy sends hlive hp (hp ▸ h)

theorem dataWrite_handled (sends : List SendChoice) (hlive : m.conn.destroy = false)
    (h : Holds m.conn.currentPush m.app ds q) :
    Handled ds q m (dataWrite (appHooks destroy) sends m) := by
  unfold dataWrite
  split
  · exact writeCurrent_handled destroy sends hlive h
  · rename_i hp
    rw [hp] at h
    obtain ⟨hd, hmsg, hconf, ds', hholds, hheld⟩ := nextPush_holds destroy m h
    refine Handled.before hd ?_ hmsg ?_
      (writeCurrent_handled destroy sends (hd.trans hlive) hholds)
    · rw [hheld, hp]
      rfl
    · rw [hp]
      exact hconf.mono (List.Subset.refl _) (List.subset_append_left ..)

/-- **A write event.** -/
theorem writeHandler_handled (connected : Bool) (sends : List SendChoice)
    (h : Holds m.conn.currentPush m.app ds q) :
    Handled ds q m (writeHandler (appHooks destroy) connected sends m) := by
  unfold writeHandler
  split
  · exact .refl h
  · rename_i hno
    have hlive : m.conn.destroy = false := by
      rw [Bool.or_eq_true, not_or] at hno
      exact Bool.eq_false_of_not_eq_true hno.2
    unfold writeSocket
    split
    · split
      · have hnext := dataWrite_handled destroy
          (m := { m with conn := { m.conn with wsockState := .dataWrite } }) sends hlive h
        refine Handled.before ?_ ?_ (fun d => ?_) ?_ hnext
        · rfl
        · rfl
        · rfl
        · exact Heap.Confined.refl ..
      · exact .closes (closed_teardown destroy true hlive h)
    · exact dataWrite_handled destroy sends hlive h
    · exact .closes (closed_teardown destroy true hlive h)

/-- **A timeout.** -/
theorem timeoutHandler_handled (h : Holds m.conn.currentPush m.app ds q) :
    Handled ds q m (timeoutHandler (appHooks destroy) m) := by
  unfold timeoutHandler
  split
  · exact .refl h
  · rename_i hno
    rw [Bool.or_eq_true, not_or] at hno
    exact .closes (closed_teardown destroy true (Bool.eq_false_of_not_eq_true hno.2) h)

end Handlers

end Xkim
