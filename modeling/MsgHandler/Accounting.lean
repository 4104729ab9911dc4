/-
MsgHandler/Accounting.lean

The books of an IO thread.

`_conn_count`, the register of online connections and the lists of the
connection cache are all kept up to date by `newConnection` and by the
destroy callback, so they agree exactly as long as every connection is
destroyed once per `initialize`.  `Books` is the invariant: it relates the
register, the objects, the cache and the sockets still to be opened.

A read event in the hazard of `MsgHandler/Teardown.lean` destroys its
connection twice, and the books are wrong from then on.  The main theorem is
that the books are right throughout a run exactly when no read event of it
happens in the hazard.
-/
import MsgHandler.IoApp
import MsgHandler.Run

namespace Xkim

namespace IoApp

/-- The open connections. -/
def liveObjs (s : IoApp) : List Obj :=
  (List.range s.brk).filter fun o => !(s.objs o).1.destroy

/-- The books are right: no connection has been torn down twice since it was
initialised, `_conn_count` is the number of registered connections and of
open ones, and no object is in the cache twice or while its connection is
open. -/
structure Accounted (s : IoApp) : Prop where
  once : ∀ o < s.brk, s.tears o ≤ 1
  count : s.owner.connCount = s.owner.onlineRegister.length
  live : s.owner.onlineRegister.length = s.liveObjs.length
  spare : s.owner.cache.spare.Nodup
  spareDead : ∀ o ∈ s.owner.cache.spare, o ∉ s.liveObjs

/-- The invariant, for the sockets `q` that wait to be opened. -/
structure Books (q : List (ℤ × ℕ)) (s : IoApp) : Prop where
  keyed : s.owner.onlineRegister.Keyed
  entry : ∀ k o, (k, o) ∈ s.owner.onlineRegister ↔ s.Live o ∧ (s.objs o).1.id = k
  count : s.owner.connCount = s.owner.onlineRegister.length
  appId : ∀ o < s.brk, (s.objs o).2.id = (s.objs o).1.id
  tears : ∀ o < s.brk, s.tears o = if (s.objs o).1.destroy then 1 else 0
  socket : ∀ o, s.Live o → (s.objs o).1.socket ≠ none
  intact : s.halted = false → ∀ o < s.brk, Intact (s.objs o).1
  spare : s.owner.cache.spare.Nodup
  spareDead : ∀ o ∈ s.owner.cache.spare, o < s.brk ∧ (s.objs o).1.destroy = true
  queued : (q.map Prod.snd).Nodup
  fresh : ∀ e ∈ s.owner.onlineRegister, e.1 ∉ q.map Prod.snd
  issued : ∀ id ∈ q.map Prod.snd, id ≤ s.lastId
  issuedEntry : ∀ e ∈ s.owner.onlineRegister, e.1 ≤ s.lastId

variable {s : IoApp} {q : List (ℤ × ℕ)}

theorem mem_liveObjs {o : Obj} : o ∈ s.liveObjs ↔ s.Live o := by
  simp [liveObjs, Live]

/-- Two open connections never share an id. -/
theorem Books.id_inj (h : Books q s) {o o' : Obj} (ho : s.Live o) (ho' : s.Live o')
    (hid : (s.objs o).1.id = (s.objs o').1.id) : o = o' := by
  have h₁ := (h.keyed.get).mpr ((h.entry _ o).mpr ⟨ho, rfl⟩)
  have h₂ := (h.keyed.get).mpr ((h.entry _ o').mpr ⟨ho', rfl⟩)
  rw [hid, h₂] at h₁
  exact (Option.some.inj h₁).symm

/-- **The invariant says that the books are right.** -/
theorem Books.accounted (h : Books q s) : Accounted s := by
  refine ⟨?_, h.count, ?_, h.spare, ?_⟩
  · intro o ho
    rw [h.tears o ho]
    split <;> decide
  · -- the register lists the open connections, each once
    have hnodup : (s.owner.onlineRegister.map Prod.snd).Nodup := by
      refine List.Nodup.map_on ?_ h.keyed.of_map
      rintro ⟨k, o⟩ ho ⟨k', o'⟩ ho' (rfl : o = o')
      rw [← ((h.entry k o).mp ho).2, ← ((h.entry k' o).mp ho').2]
    have hperm : (s.owner.onlineRegister.map Prod.snd).Perm s.liveObjs := by
      refine (List.perm_ext_iff_of_nodup hnodup (List.nodup_range.filter _)).mpr ?_
      intro o
      rw [show (o ∈ List.filter _ _) = (o ∈ s.liveObjs) from rfl, mem_liveObjs]
      constructor
      · intro hmem
        obtain ⟨⟨k, o'⟩, he, rfl⟩ := List.mem_map.mp hmem
        exact ((h.entry k o').mp he).1
      · intro hlive
        exact List.mem_map.mpr ⟨_, (h.entry _ o).mpr ⟨hlive, rfl⟩, rfl⟩
    have hlen := hperm.length_eq
    rwa [List.length_map] at hlen
  · intro o ho hlive
    have hdead := (h.spareDead o ho).2
    rw [(mem_liveObjs.mp hlive).2] at hdead
    cases hdead

/-! ### Handlers -/

/-- What the owner of a connection and the destroy callback see of it. -/
def ownerOf {ω : Type} (w : AppWorld ω) : ω × ℕ := (w.owner, w.conn.id)

/-- The destroy callback on what the owner sees. -/
def destroyed {ω : Type} (destroy : ℕ → ω → ω) (p : ω × ℕ) : ω × ℕ := (destroy p.2 p.1, p.2)

/-- Only the destroy callback touches the owner of an `IoAppConnection`. -/
theorem appHooks_ownedBy {ω : Type} (destroy : ℕ → ω → ω) :
    OwnedBy (appHooks destroy) ownerOf (destroyed destroy) where
  whenReceivedFrame := by
    intro mem b size w r w' h
    rcases AppWorld.whenReceivedFrame_owner h with ⟨ho, hi⟩
    exact Prod.ext ho hi
  pendingPushData _ _ := rfl
  whenClosed w := Prod.ext (AppWorld.whenClosed_owner w).1 (AppWorld.whenClosed_owner w).2
  whenDestroy _ := rfl
  getPushData _ := rfl
  destroyMsgData _ _ := rfl
  setWpos _ _ _ := rfl

variable {o : Obj} {m : Ctx Addr (AppWorld IoAppOwner)} {stream : List UInt8} {alloc : Bool}

/-- Nothing in the books has changed. -/
structure SameBooks (s s' : IoApp) : Prop where
  owner : s'.owner = s.owner
  brk : s'.brk = s.brk
  lastId : s'.lastId = s.lastId
  destroy : ∀ o, (s'.objs o).1.destroy = (s.objs o).1.destroy
  socket : ∀ o, (s'.objs o).1.socket = (s.objs o).1.socket
  id : ∀ o, (s'.objs o).1.id = (s.objs o).1.id
  appId : ∀ o, (s'.objs o).2.id = (s.objs o).2.id
  tears : ∀ o, s'.tears o = s.tears o
  intact : s'.halted = false → ∀ o < s.brk, Intact (s'.objs o).1

theorem Books.same {s' : IoApp} (h : Books q s) (hs : SameBooks s s') : Books q s' := by
  have hlive : ∀ o, s'.Live o ↔ s.Live o := by
    intro o
    rw [Live, Live, hs.brk, hs.destroy]
  refine ⟨?_, ?_, ?_, ?_, ?_, ?_, ?_, ?_, ?_, h.queued, ?_, ?_, ?_⟩
  · rw [hs.owner]
    exact h.keyed
  · intro k o
    rw [hs.owner, hlive, hs.id]
    exact h.entry k o
  · rw [hs.owner]
    exact h.count
  · intro o ho
    rw [hs.appId, hs.id]
    exact h.appId o (hs.brk ▸ ho)
  · intro o ho
    rw [hs.tears, hs.destroy]
    exact h.tears o (hs.brk ▸ ho)
  · intro o ho
    rw [hs.socket]
    exact h.socket o ((hlive o).mp ho)
  · intro hrun o ho
    exact hs.intact hrun o (hs.brk ▸ ho)
  · rw [hs.owner]
    exact h.spare
  · intro o ho
    rw [hs.brk, hs.destroy]
    exact h.spareDead o (hs.owner ▸ ho)
  · rw [hs.owner]
    exact h.fresh
  · rw [hs.lastId]
    exact h.issued
  · rw [hs.owner, hs.lastId]
    exact h.issuedEntry

theorem after_objs_self (s : IoApp) (o : Obj) (m : Ctx Addr (AppWorld IoAppOwner)) :
    (s.after o m).objs o = (m.conn, m.app.conn) := Function.update_self ..

theorem after_objs_of_ne (s : IoApp) {o o' : Obj} (hne : o' ≠ o)
    (m : Ctx Addr (AppWorld IoAppOwner)) : (s.after o m).objs o' = s.objs o' :=
  Function.update_of_ne hne ..

theorem after_tears_self (s : IoApp) (o : Obj) (m : Ctx Addr (AppWorld IoAppOwner)) :
    (s.after o m).tears o = s.tears o + teardowns m.trace := Function.update_self ..

theorem after_tears_of_ne (s : IoApp) {o o' : Obj} (hne : o' ≠ o)
    (m : Ctx Addr (AppWorld IoAppOwner)) : (s.after o m).tears o' = s.tears o' :=
  Function.update_of_ne hne ..

/-- The other objects are as intact as they were. -/
theorem Books.intact_after (h : Books q s) (hrun : s.halted = false) (hkept : Kept m)
    (hm : (s.after o m).halted = false) : ∀ o' < s.brk, Intact ((s.after o m).objs o').1 := by
  intro o' ho'
  by_cases he : o' = o
  · subst he
    rw [after_objs_self]
    refine hkept.resolve_left ?_
    rw [show m.halted = false from hm]
    exact Bool.false_ne_true
  · rw [after_objs_of_ne s he]
    exact h.intact hrun o' ho'

/-- A handler that does not tear the connection down. -/
theorem Books.quiet (h : Books q s) (hrun : s.halted = false)
    (hdid : Did ownerOf (destroyed (IoAppOwner.destroy o)) 0 (s.ctx o stream alloc) m)
    (hkept : Kept m) : Books q (s.after o m) := by
  have hdestroy : m.conn.destroy = (s.objs o).1.destroy := by
    rw [hdid.destroy]
    exact Bool.or_false _
  have hobj : ∀ {β : Type} (f : IoConnection Addr × IoAppConnection → β),
      f (m.conn, m.app.conn) = f (s.objs o) →
      ∀ o', f ((s.after o m).objs o') = f (s.objs o') := by
    intro β f hf o'
    by_cases he : o' = o
    · rw [he, after_objs_self]
      exact hf
    · rw [after_objs_of_ne s he]
  refine h.same ⟨congrArg Prod.fst hdid.owner, rfl, rfl, hobj (fun p => p.1.destroy) hdestroy,
    hobj (fun p => p.1.socket) (hdid.socket rfl), hobj (fun p => p.1.id) hdid.id,
    hobj (fun p => p.2.id) (congrArg Prod.snd hdid.owner), ?_, h.intact_after hrun hkept⟩
  intro o'
  by_cases he : o' = o
  · have htears := hdid.tears
    rw [he, after_tears_self, htears]
    rfl
  · exact after_tears_of_ne s he m

/-- What a teardown does with the object `o`: it leaves the register and goes
to the cache. -/
structure Closed (s s' : IoApp) (o : Obj) : Prop where
  count : s'.owner.connCount = s.owner.connCount - 1
  register : s'.owner.onlineRegister = s.owner.onlineRegister.unset (s.objs o).1.id
  spare : s'.owner.cache.spare = s.owner.cache.spare ++ [o]
  brk : s'.brk = s.brk
  objs : ∀ o', o' ≠ o → s'.objs o' = s.objs o' ∧ s'.tears o' = s.tears o'
  destroy : (s'.objs o).1.destroy = true
  appId : (s'.objs o).2.id = (s'.objs o).1.id
  tears : s'.tears o = 1
  intact : s'.halted = false → ∀ o' < s.brk, Intact (s'.objs o').1
  lastId : s'.lastId = s.lastId

/-- A handler that tears an open connection down once. -/
theorem Books.after_closed (h : Books q s) (hrun : s.halted = false) (hlive : s.Live o)
    (hdid : Did ownerOf (destroyed (IoAppOwner.destroy o)) 1 (s.ctx o stream alloc) m)
    (hkept : Kept m) : Closed s (s.after o m) o := by
  have hid : m.conn.id = (s.objs o).1.id := hdid.id
  have hdestroy : m.conn.destroy = true := by
    rw [hdid.destroy]
    exact Bool.or_true _
  have howner : m.app.owner = s.owner.destroy o (s.objs o).1.id := by
    have := congrArg Prod.fst hdid.owner
    rw [← h.appId o hlive.1]
    exact this
  have happ : m.app.conn.id = (s.objs o).1.id := by
    rw [← h.appId o hlive.1]
    exact congrArg Prod.snd hdid.owner
  have hself := after_objs_self s o m
  refine ⟨congrArg IoAppOwner.connCount howner, congrArg IoAppOwner.onlineRegister howner,
    ?_, rfl, ?_, ?_, ?_, ?_, h.intact_after hrun hkept, rfl⟩
  · exact (congrArg (fun w => w.cache.spare) howner).trans (ConnectionCache.spare_recycle _ _)
  · intro o' hne
    exact ⟨after_objs_of_ne s hne m, after_tears_of_ne s hne m⟩
  · rw [hself]
    exact hdestroy
  · rw [hself]
    exact happ.trans hid.symm
  · -- an open connection has not been torn down before
    have htears := hdid.tears
    rw [after_tears_self, htears, h.tears o hlive.1, hlive.2]
    simp [ctx, teardowns]

/-- A connection is closed. -/
theorem Books.closed {s' : IoApp} (h : Books q s) (hlive : s.Live o) (hc : Closed s s' o) :
    Books q s' := by
  have hmem : ((s.objs o).1.id, o) ∈ s.owner.onlineRegister := (h.entry _ o).mpr ⟨hlive, rfl⟩
  -- the object itself is no longer open, the others are as before
  have hself : ¬ s'.Live o := by
    rintro ⟨-, hd⟩
    rw [hc.destroy] at hd
    cases hd
  have hother : ∀ {o'}, o' ≠ o → (s'.Live o' ↔ s.Live o') := by
    intro o' hne
    rw [Live, Live, hc.brk, (hc.objs o' hne).1]
  have hstay : ∀ e ∈ s'.owner.onlineRegister, e ∈ s.owner.onlineRegister := by
    intro e he
    rw [hc.register] at he
    exact (ConnectionRegister.mem_unset.mp he).1
  refine ⟨?_, ?_, ?_, ?_, ?_, ?_, ?_, ?_, ?_, h.queued, ?_, ?_, ?_⟩
  · rw [hc.register]
    exact h.keyed.unset _
  · intro k o'
    rw [hc.register, ConnectionRegister.mem_unset, h.entry]
    by_cases he : o' = o
    · subst he
      exact ⟨fun hk => absurd hk.1.2 hk.2.symm, fun hk => absurd hk.1 hself⟩
    · rw [hother he, (hc.objs o' he).1]
      refine ⟨fun hk => hk.1, fun hk => ⟨hk, ?_⟩⟩
      intro hkey
      exact he (h.id_inj hk.1 hlive (hk.2.trans hkey))
  · have hlen := h.keyed.length_unset hmem
    have hcount := h.count
    rw [hc.register, hc.count]
    omega
  · intro o' ho'
    by_cases he : o' = o
    · rw [he]
      exact hc.appId
    · rw [(hc.objs o' he).1]
      exact h.appId o' (hc.brk ▸ ho')
  · intro o' ho'
    by_cases he : o' = o
    · rw [he, hc.tears, hc.destroy]
      rfl
    · rw [(hc.objs o' he).1, (hc.objs o' he).2]
      exact h.tears o' (hc.brk ▸ ho')
  · intro o' ho'
    have he : o' ≠ o := fun he => hself (he ▸ ho')
    rw [(hc.objs o' he).1]
    exact h.socket o' ((hother he).mp ho')
  · intro hrun o' ho'
    exact hc.intact hrun o' (hc.brk ▸ ho')
  · -- an open connection is not in the cache, so its object is new there
    rw [hc.spare, ← List.concat_eq_append]
    refine h.spare.concat ?_
    intro hmem
    have hdead := (h.spareDead o hmem).2
    rw [hlive.2] at hdead
    cases hdead
  · intro o' ho'
    rw [hc.spare] at ho'
    rw [hc.brk]
    by_cases he : o' = o
    · rw [he]
      exact ⟨hlive.1, hc.destroy⟩
    · rw [(hc.objs o' he).1]
      rcases List.mem_append.mp ho' with ho' | ho'
      · exact h.spareDead o' ho'
      · exact absurd (List.mem_singleton.mp ho') he
  · exact fun e he => h.fresh e (hstay e he)
  · rw [hc.lastId]
    exact h.issued
  · intro e he
    rw [hc.lastId]
    exact h.issuedEntry e (hstay e he)

/-! ### Opening connections -/

/-- What one round of `newConnection` does with the socket `sock`: the
object `o`, whose connection was not open, is initialised and registered. -/
structure Opened (s s' : IoApp) (sock : ℤ × ℕ) (o : Obj) : Prop where
  count : s'.owner.connCount = s.owner.connCount + 1
  register : s'.owner.onlineRegister = s.owner.onlineRegister.set sock.2 o
  spare : s'.owner.cache.spare.Nodup
  taken : o ∉ s'.owner.cache.spare
  kept : ∀ o' ∈ s'.owner.cache.spare, o' ∈ s.owner.cache.spare
  dead : ¬ s.Live o
  brk : ∀ o', o' < s'.brk ↔ o' < s.brk ∨ o' = o
  objs : ∀ o', o' ≠ o → s'.objs o' = s.objs o' ∧ s'.tears o' = s.tears o'
  destroy : (s'.objs o).1.destroy = false
  socket : (s'.objs o).1.socket ≠ none
  id : (s'.objs o).1.id = sock.2
  appId : (s'.objs o).2.id = sock.2
  tears : s'.tears o = 0
  intact : Intact (s'.objs o).1
  lastId : s'.lastId = s.lastId
  halted : s'.halted = s.halted

theorem initializeConn_intact {c : IoConnection Addr} (hbuf : c.rbuf.length = FRAME_MAX_SIZE)
    (hsize : c.rsize = FRAME_MAX_SIZE) (fd io : ℤ) (id : ℕ) :
    Intact { c.initializeConn fd io id with revent := true } :=
  ⟨⟨hbuf, hsize, Nat.zero_le _, Or.inl rfl, fun he => nomatch he⟩,
    fun _ _ => Or.inl (Nat.zero_lt_succ 3)⟩

theorem openConnection_opened {sock : ℤ × ℕ} (h : Books (sock :: q) s) (hrun : s.halted = false) :
    ∃ o, Opened s (s.openConnection sock) sock o := by
  have hspare := h.spare
  rcases s.owner.cache.get_cases with ⟨o, K, hget, heq⟩ | hget
  · -- an object from the cache
    have ho := h.spareDead o (by rw [heq]; exact List.mem_cons_self)
    have hint := h.intact hrun o ho.1
    rw [heq] at hspare
    obtain ⟨htaken, hnodup⟩ := List.nodup_cons.mp hspare
    refine ⟨o, ?_⟩
    simp only [openConnection, hget, Option.getD_some]
    refine ⟨rfl, rfl, hnodup, htaken, ?_, ?_, ?_, ?_, ?_, ?_, ?_, ?_, ?_, ?_, rfl, rfl⟩
    · intro o' ho'
      rw [heq]
      exact List.mem_cons_of_mem _ ho'
    · rintro ⟨-, hd⟩
      rw [ho.2] at hd
      cases hd
    · intro o'
      refine ⟨Or.inl, ?_⟩
      rintro (ho' | rfl)
      · exact ho'
      · exact ho.1
    · intro o' hne
      exact ⟨Function.update_of_ne hne .., Function.update_of_ne hne ..⟩
    all_goals simp only [Function.update_self]
    · rfl
    · exact Option.some_ne_none sock.1
    · rfl
    · rfl
    · exact initializeConn_intact hint.rbuf hint.rsize _ _ _
  · -- a new object
    have hnew := IoConnection.new_sized Addr
    refine ⟨s.brk, ?_⟩
    simp only [openConnection, hget, Option.getD_none]
    refine ⟨rfl, rfl, hspare, ?_, fun o' ho' => ho', ?_, ?_, ?_, ?_, ?_, ?_, ?_, ?_, ?_, rfl, rfl⟩
    · intro hmem
      exact absurd (h.spareDead _ hmem).1 (lt_irrefl _)
    · rintro ⟨hlt, -⟩
      exact absurd hlt (lt_irrefl _)
    · intro o'
      exact Nat.lt_succ_iff_lt_or_eq
    · intro o' hne
      refine ⟨?_, Function.update_of_ne hne ..⟩
      show Function.update (Function.update _ _ _) _ _ o' = _
      rw [Function.update_of_ne hne, Function.update_of_ne hne]
    all_goals simp only [Function.update_self]
    · rfl
    · exact Option.some_ne_none sock.1
    · rfl
    · rfl
    · exact initializeConn_intact hnew.1 hnew.2 _ _ _

/-- A socket is opened. -/
theorem Books.opened {s' : IoApp} {sock : ℤ × ℕ} {o : Obj} (h : Books (sock :: q) s)
    (hrun : s.halted = false) (ho : Opened s s' sock o) : Books q s' := by
  obtain ⟨hnew, hqueued⟩ := List.nodup_cons.mp h.queued
  have hfresh : ∀ e ∈ s.owner.onlineRegister, e.1 ≠ sock.2 ∧ e.1 ∉ q.map Prod.snd := by
    intro e he
    have hmem := h.fresh e he
    rw [List.map_cons, List.mem_cons, not_or] at hmem
    exact hmem
  have hreg : s'.owner.onlineRegister = (sock.2, o) :: s.owner.onlineRegister := by
    rw [ho.register, ConnectionRegister.set,
      ConnectionRegister.unset_of_not_mem fun e he => (hfresh e he).1]
  -- the object is open now, the others are as before
  have hself : s'.Live o := ⟨(ho.brk o).mpr (Or.inr rfl), ho.destroy⟩
  have hother : ∀ {o'}, o' ≠ o → (s'.Live o' ↔ s.Live o') := by
    intro o' hne
    rw [Live, Live, ho.brk, (ho.objs o' hne).1]
    exact ⟨fun hl => ⟨hl.1.resolve_right hne, hl.2⟩, fun hl => ⟨Or.inl hl.1, hl.2⟩⟩
  have hbrk : ∀ {o'}, o' < s'.brk → o' ≠ o → o' < s.brk :=
    fun hlt hne => ((ho.brk _).mp hlt).resolve_right hne
  refine ⟨?_, ?_, ?_, ?_, ?_, ?_, ?_, ho.spare, ?_, hqueued, ?_, ?_, ?_⟩
  · rw [ho.register]
    exact h.keyed.set _ _
  · intro k o'
    rw [hreg, List.mem_cons, h.entry]
    by_cases he : o' = o
    · subst he
      rw [ho.id]
      constructor
      · rintro (hk | ⟨hl, -⟩)
        · exact ⟨hself, (congrArg Prod.fst hk).symm⟩
        · exact absurd hl ho.dead
      · rintro ⟨-, rfl⟩
        exact Or.inl rfl
    · rw [hother he, (ho.objs o' he).1]
      refine ⟨fun hk => hk.resolve_left fun hk => he (congrArg Prod.snd hk), Or.inr⟩
  · rw [ho.count, hreg, List.length_cons, h.count]
    push_cast
    ring
  · intro o' ho'
    by_cases he : o' = o
    · rw [he, ho.appId, ho.id]
    · rw [(ho.objs o' he).1]
      exact h.appId o' (hbrk ho' he)
  · intro o' ho'
    by_cases he : o' = o
    · rw [he, ho.tears, ho.destroy]
      rfl
    · rw [(ho.objs o' he).1, (ho.objs o' he).2]
      exact h.tears o' (hbrk ho' he)
  · intro o' ho'
    by_cases he : o' = o
    · rw [he]
      exact ho.socket
    · rw [(ho.objs o' he).1]
      exact h.socket o' ((hother he).mp ho')
  · intro _ o' ho'
    by_cases he : o' = o
    · rw [he]
      exact ho.intact
    · rw [(ho.objs o' he).1]
      exact h.intact hrun o' (hbrk ho' he)
  · intro o' ho'
    have hne : o' ≠ o := fun he => ho.taken (he ▸ ho')
    have hdead := h.spareDead o' (ho.kept o' ho')
    rw [(ho.objs o' hne).1]
    exact ⟨(ho.brk o').mpr (Or.inl hdead.1), hdead.2⟩
  · intro e he
    rw [hreg] at he
    rcases List.mem_cons.mp he with rfl | he
    · exact hnew
    · exact (hfresh e he).2
  · intro id hid
    rw [ho.lastId]
    exact h.issued id (List.mem_cons_of_mem _ hid)
  · intro e he
    rw [hreg] at he
    rw [ho.lastId]
    rcases List.mem_cons.mp he with rfl | he
    · exact h.issued _ List.mem_cons_self
    · exact h.issuedEntry e he

/-- The loop of `newConnection`, socket by socket. -/
theorem Books.foldl_opened (h : Books q s) (hrun : s.halted = false) :
    Books [] (q.foldl openConnection s) := by
  induction q generalizing s with
  | nil => exact h
  | cons sock q ih =>
    obtain ⟨o, ho⟩ := openConnection_opened h hrun
    exact ih (h.opened hrun ho) (ho.halted.trans hrun)

/-- Neither the queue of the thread nor the round of its loop is in the
books. -/
theorem Books.newConnection (h : Books s.sockQueue s) (hrun : s.halted = false) :
    Books [] s.newConnection := by
  have hstart : Books s.sockQueue { s with sockQueue := [] } :=
    h.same ⟨rfl, rfl, rfl, fun _ => rfl, fun _ => rfl, fun _ => rfl, fun _ => rfl, fun _ => rfl,
      fun _ => h.intact hrun⟩
  have hdone := hstart.foldl_opened hrun
  exact ⟨hdone.keyed, hdone.entry, hdone.count, hdone.appId, hdone.tears, hdone.socket,
    hdone.intact, hdone.spare, hdone.spareDead, hdone.queued, hdone.fresh, hdone.issued,
    hdone.issuedEntry⟩

/-! ### Whole runs -/

/-- A read event outside the hazard; every other event. -/
def Allowed (s : IoApp) : Event → Prop
  | .read o _ _ _ script => ¬ (s.Live o ∧ Hazard (s.objs o).1 script)
  | _ => True

/-- The event takes an id from the accept service. -/
def TakesId : Event → Bool
  | .accept _ => true
  | .acceptElsewhere => true
  | _ => false

/-- The accept service has ids left for the event: its counter does not wrap
around. -/
def IdsLeft (s : IoApp) (e : Event) : Prop := TakesId e = true → s.lastId + 1 < 2 ^ 64

theorem nextId_eq (h : s.lastId + 1 < 2 ^ 64) : s.nextId = s.lastId + 1 := Nat.mod_eq_of_lt h

/-- The next id is not in use. -/
theorem Books.accept (h : Books q s) (hids : s.lastId + 1 < 2 ^ 64) (fd : ℤ) :
    Books (q ++ [(fd, s.nextId)])
      { s with lastId := s.nextId, sockQueue := q ++ [(fd, s.nextId)] } := by
  have hnext := nextId_eq hids
  have hgrow : ∀ id ∈ q.map Prod.snd, id < s.nextId := by
    intro id hid
    have := h.issued id hid
    omega
  have hgrow' : ∀ e ∈ s.owner.onlineRegister, e.1 < s.nextId := by
    intro e he
    have := h.issuedEntry e he
    omega
  refine ⟨h.keyed, h.entry, h.count, h.appId, h.tears, h.socket, h.intact, h.spare, h.spareDead,
    ?_, ?_, ?_, fun e he => (hgrow' e he).le⟩
  · rw [List.map_append, List.map_singleton, ← List.concat_eq_append]
    exact h.queued.concat fun hmem => (hgrow _ hmem).false
  · intro e he
    rw [List.map_append, List.mem_append, not_or]
    refine ⟨h.fresh e he, ?_⟩
    rw [List.map_singleton, List.mem_singleton]
    exact (hgrow' e he).ne
  · intro id hid
    rw [List.map_append, List.mem_append] at hid
    rcases hid with hid | hid
    · exact (hgrow id hid).le
    · rw [List.map_singleton, List.mem_singleton] at hid
      exact hid.le

theorem Books.acceptElsewhere (h : Books q s) (hids : s.lastId + 1 < 2 ^ 64) :
    Books q { s with lastId := s.nextId } := by
  have hnext := nextId_eq hids
  refine ⟨h.keyed, h.entry, h.count, h.appId, h.tears, h.socket, h.intact, h.spare, h.spareDead,
    h.queued, h.fresh, ?_, ?_⟩
  · intro id hid
    have := h.issued id hid
    show id ≤ s.nextId
    omega
  · intro e he
    have := h.issuedEntry e he
    show e.1 ≤ s.nextId
    omega

/-- The books do not depend on the state that the thread shares with
others, except that ids are never taken back. -/
theorem Books.reload (h : Books q s) (H : Heap) (Q : Option MsMessageBlockQueue)
    (p : List (Addr × IMessage)) {n : ℕ} (hn : s.lastId ≤ n) :
    Books q { s with heap := H, collector := Q, lastId := n, processed := p } :=
  ⟨h.keyed, h.entry, h.count, h.appId, h.tears, h.socket, h.intact, h.spare, h.spareDead,
    h.queued, h.fresh, fun id hid => (h.issued id hid).trans hn,
    fun e he => (h.issuedEntry e he).trans hn⟩

/-- A handler that tears down at most once, and an open connection only. -/
theorem Books.handled (h : Books q s) (hrun : s.halted = false) (ho : o < s.brk)
    (honce : Once ownerOf (destroyed (IoAppOwner.destroy o)) (s.ctx o stream alloc) m)
    (hkept : Kept m) (hnoop : (s.objs o).1.destroy = true → m = s.ctx o stream alloc) :
    Books q (s.after o m) := by
  rcases hd : (s.objs o).1.destroy with - | -
  · rcases honce with hdid | hdid
    · exact h.quiet hrun hdid hkept
    · exact h.closed ⟨ho, hd⟩ (h.after_closed hrun ⟨ho, hd⟩ hdid hkept)
  · have hm := hnoop hd
    subst hm
    exact h.quiet hrun (Did.refl _) hkept

/-- **A message pushed to a connection** leaves the books alone. -/
theorem Books.pushMessage (h : Books s.sockQueue s) (hrun : s.halted = false) (v : Addr) :
    Books s.sockQueue (s.pushMessage v) := by
  have hsame : ∀ (H : Heap) (Q : Option MsMessageBlockQueue),
      Books s.sockQueue { s with heap := H, collector := Q } := fun H Q =>
    h.same ⟨rfl, rfl, rfl, fun _ => rfl, fun _ => rfl, fun _ => rfl, fun _ => rfl, fun _ => rfl,
      fun _ => h.intact hrun⟩
  unfold IoApp.pushMessage
  simp only
  split
  · rename_i o hget
    have hlive := ((h.entry _ o).mp (h.keyed.get.mp hget)).1
    have hset : SameRead (s.objs o).1 (s.objs o).1.setWrite ∧
        (s.objs o).1.setWrite.destroy = (s.objs o).1.destroy ∧
        (s.objs o).1.setWrite.socket = (s.objs o).1.socket ∧
        (s.objs o).1.setWrite.id = (s.objs o).1.id := by
      unfold IoConnection.setWrite
      split
      · exact ⟨SameRead.refl _, rfl, rfl, rfl⟩
      · exact ⟨⟨rfl, rfl, rfl, rfl, rfl, fun hd => hd⟩, rfl, rfl, rfl⟩
    obtain ⟨hread, hdestroy, hsocket, hid⟩ := hset
    refine h.quiet hrun (Did.of_eq (List.append_nil _).symm rfl rfl hdestroy hsocket hid) ?_
    exact Or.inr ((h.intact hrun o hlive.1).same hread)
  · split
    · exact hsame _ _
    · exact hsame _ _

theorem openConnection_sockQueue (s : IoApp) (sock : ℤ × ℕ) :
    (s.openConnection sock).sockQueue = s.sockQueue := by
  rcases s.owner.cache.get_cases with ⟨o, K, hget, -⟩ | hget <;>
    simp only [openConnection, hget]

theorem newConnection_sockQueue (s : IoApp) : s.newConnection.sockQueue = [] := by
  have hfold : ∀ (q : List (ℤ × ℕ)) (s : IoApp),
      (q.foldl openConnection s).sockQueue = s.sockQueue := by
    intro q
    induction q with
    | nil => exact fun _ => rfl
    | cons sock q ih =>
      intro s
      exact (ih _).trans (openConnection_sockQueue s sock)
  exact hfold s.sockQueue _

/-- **One event** keeps the books, within its guard. -/
theorem Books.step {s' : IoApp} {e : Event} (h : Books s.sockQueue s) (hids : IdsLeft s e)
    (hok : Allowed s e) (hstep : s.step e = some s') : Books s'.sockQueue s' := by
  obtain ⟨hrun, hhappens⟩ := step_happens hstep
  cases hhappens with
  | accept fd => exact h.accept (hids rfl) fd
  | acceptElsewhere => exact h.acceptElsewhere (hids rfl)
  | newConnection =>
    rw [newConnection_sockQueue]
    exact h.newConnection hrun
  | @read o ho fuel stream alloc script =>
    refine h.handled hrun ho (readHandler_once (appHooks_ownedBy _) fuel ?_ ?_)
      (readHandler_kept fuel (h.intact hrun o ho)) (fun hd => readHandler_destroyed fuel hd)
    · exact fun hd => h.socket o ⟨ho, hd⟩
    · exact fun hd hz => hok ⟨⟨ho, hd⟩, hz⟩
  | @write o ho connected sends =>
    exact h.handled hrun ho (writeHandler_once (appHooks_ownedBy _) connected sends _)
      (Or.inr ((h.intact hrun o ho).same
        ((writeSameRead _).writeHandler connected sends (s.ctx o [] true))))
      (fun hd => writeHandler_destroyed hd)
  | @timeout o ho =>
    exact h.handled hrun ho (timeoutHandler_once (appHooks_ownedBy _) _)
      (Or.inr ((h.intact hrun o ho).same ((writeSameRead _).timeoutHandler (s.ctx o [] true))))
      (fun hd => timeoutHandler_destroyed hd)
  | push v =>
    have hq : (s.pushMessage v).sockQueue = s.sockQueue := by
      unfold IoApp.pushMessage
      simp only
      split
      · rfl
      · split <;> rfl
    rw [hq]
    exact h.pushMessage hrun v
  | outside H Q =>
    exact h.same ⟨rfl, rfl, rfl, fun _ => rfl, fun _ => rfl, fun _ => rfl, fun _ => rfl,
      fun _ => rfl, fun _ => h.intact hrun⟩

/-- **An event outside its guard** destroys a connection twice. -/
theorem Books.sharp {s' : IoApp} {e : Event} (h : Books s.sockQueue s)
    (hstep : s.step e = some s') (honce : ∀ o < s'.brk, s'.tears o ≤ 1) : Allowed s e := by
  cases e with
  | read o fuel stream alloc script =>
    rintro ⟨hlive, hz⟩
    obtain ⟨hrun, hhappens⟩ := step_happens hstep
    cases hhappens with
    | read ho fuel stream alloc script =>
      have hdid := readHandler_twice (m := s.ctx o stream alloc)
        (appHooks_ownedBy (IoAppOwner.destroy o)) fuel (h.intact hrun o ho) hrun hlive.2 hz
      have hone := honce o ho
      rw [after_tears_self, hdid.tears] at hone
      omega
  | _ => trivial

/-- A thread that has just been started has nothing on its books. -/
theorem books_new (id : ℤ) (limits : ℤ × ℤ × ℤ) (H : Heap)
    (collector : Option MsMessageBlockQueue) (clock : ℕ → ℤ) :
    Books [] (IoApp.new id limits H collector clock) := by
  refine ⟨List.nodup_nil, ?_, rfl, ?_, ?_, ?_, ?_, List.nodup_nil, ?_, List.nodup_nil, ?_, ?_, ?_⟩
  · intro k o
    exact ⟨(fun h => nomatch h), fun h => absurd h.1.1 (Nat.not_lt_zero o)⟩
  · exact fun o h => absurd h (Nat.not_lt_zero o)
  · exact fun o h => absurd h (Nat.not_lt_zero o)
  · exact fun o h => absurd h.1 (Nat.not_lt_zero o)
  · exact fun _ o h => absurd h (Nat.not_lt_zero o)
  · exact fun o h => nomatch h
  · exact fun e h => nomatch h
  · exact fun e h => nomatch h
  · exact fun e h => nomatch h

theorem step_lastId {s' : IoApp} {e : Event} (hids : IdsLeft s e) (hstep : s.step e = some s') :
    s'.lastId = s.lastId + (if TakesId e then 1 else 0) := by
  have hopen : ∀ (s : IoApp) (sock : ℤ × ℕ), (s.openConnection sock).lastId = s.lastId := by
    intro s sock
    rcases s.owner.cache.get_cases with ⟨o, K, hget, -⟩ | hget <;>
      simp only [openConnection, hget]
  have hfold : ∀ (q : List (ℤ × ℕ)) (s : IoApp),
      (q.foldl openConnection s).lastId = s.lastId := by
    intro q
    induction q with
    | nil => exact fun _ => rfl
    | cons sock q ih =>
      intro s
      exact (ih _).trans (hopen s sock)
  obtain ⟨-, hhappens⟩ := step_happens hstep
  cases hhappens with
  | accept fd => exact nextId_eq (hids rfl)
  | acceptElsewhere => exact nextId_eq (hids rfl)
  | newConnection => exact hfold s.sockQueue _
  | read ho fuel stream alloc script => rfl
  | write ho connected sends => rfl
  | timeout ho => rfl
  | push v =>
    unfold IoApp.pushMessage
    simp only
    split
    · rfl
    · split <;> rfl
  | outside H Q => rfl

/-- Fewer than `2 ^ 64` accepted connections leave ids for all of them. -/
theorem guarded_idsLeft {es : List Event} (h : s.lastId + es.countP TakesId < 2 ^ 64) :
    Guarded IoApp.step IdsLeft s es := by
  induction es generalizing s with
  | nil => trivial
  | cons e es ih =>
    intro s' hstep
    rw [List.countP_cons] at h
    have hids : IdsLeft s e := by
      intro he
      rw [if_pos he] at h
      omega
    refine ⟨hids, ih ?_⟩
    rw [step_lastId hids hstep]
    omega

/-- **The books of an IO thread.**  In a run that accepts fewer than `2 ^ 64`
connections, every connection is torn down at most once per `initialize`,
`_conn_count` is the number of registered and of open connections, and no
object is in the cache twice or while its connection is open, in every state
of the run, exactly if no read event of the run happens in the hazard. -/
theorem always_accounted_iff (id : ℤ) (limits : ℤ × ℤ × ℤ) (H : Heap)
    (collector : Option MsMessageBlockQueue) (clock : ℕ → ℤ) (es : List Event)
    (hids : es.countP TakesId < 2 ^ 64) :
    Always IoApp.step Accounted (IoApp.new id limits H collector clock) es ↔
      Guarded IoApp.step Allowed (IoApp.new id limits H collector clock) es := by
  refine always_iff_guarded (I := fun s => Books s.sockQueue s) ?_ ?_ ?_
    (books_new id limits H collector clock) (guarded_idsLeft ((Nat.zero_add _).trans_lt hids))
  · exact fun s e s' h hk hg hs => h.step hk hg hs
  · exact fun s h => h.accounted
  · exact fun s e s' h _ hs hp => h.sharp hs hp.once

/-- A connection that receives a frame and five bytes of the next one, and
then times out. -/
theorem always_accounted_timeout :
    Always IoApp.step Accounted (IoApp.new 0 (9, 9, 9) Heap.empty none fun _ => 0)
      [.accept 5, .newConnection,
        .read 0 1024 [0, 0, 0, 4, 0x6D, 0x69, 0x6D, 0x69, 0, 0, 0, 9, 1] true [.take 12],
        .timeout 0] := by
  refine (always_accounted_iff 0 (9, 9, 9) Heap.empty none (fun _ => 0) _ (by decide)).mpr ?_
  refine fun _ _ => ⟨trivial, fun _ _ => ⟨trivial, fun _ _ => ⟨?_, fun _ _ => ⟨trivial, ?_⟩⟩⟩⟩
  · rintro ⟨-, -, -, herror⟩
    cases herror
  · trivial

/-- The same connection, but the next read event meets an error: it is torn
down twice, `_conn_count` drops below zero, and the object is in the cache
twice. -/
theorem reset_destroyed_twice :
    (runEvents IoApp.step (IoApp.new 0 (9, 9, 9) Heap.empty none fun _ => 0)
      [.accept 5, .newConnection,
        .read 0 1024 [0, 0, 0, 4, 0x6D, 0x69, 0x6D, 0x69, 0, 0, 0, 9, 1] true [.take 12],
        .read 0 1024 [] true [.error]]).map
      (fun s => (s.tears 0, s.owner.connCount, s.owner.onlineRegister, s.owner.cache.spare)) =
    some (2, -1, [], [0, 0]) := by
  decide +kernel

end IoApp

end Xkim
