/-
MsgHandler/Gate.lean

Who gets through to the message handlers.

A connection is in `MSG_STATE` only because a message pushed to it carried
`_switch_state`, and only `ImMessageAuthProcessor::processAuthPack` sets that.
On its way back the message crosses the router's queue, the queue of the IO
thread and perhaps, when its connection is closed in the meantime, the
collector, which sends it on to another connection of the same user.

The invariant behind the results, `Gate`, does not say where a message is,
only what is in it: a message that would switch a state, or that claims to
come from a connection in `MSG_STATE`, names a connection on which an IM_AUTH
pack has been accepted; and a message on its way to the auth workers names
the connection on which its bytes were received.  This holds for every
message in memory, even for one that has been released.

So only connections with an accepted IM_AUTH pack are handled
(`always_authed`).
-/
import MsgHandler.IoMessages
import MsgHandler.Registry

namespace Xkim

namespace Pipeline

/-! ### What the log says -/

section Log

variable {C : Codec} {log log' : List Note} {c : ℕ} {u : ℤ}

/-- A frame received on the connection was an IM_AUTH pack, with a user and a
token, and was accepted later. -/
def Authed (C : Codec) (log : List Note) (c : ℕ) : Prop :=
  ∃ uid data, [.received c data, .accepted c uid data].Sublist log ∧ IsAuthPack C uid data

/-- An IM_AUTH pack of user `u` was accepted on the connection; or an IM_TOUCH
pack was that names `u`, after an IM_AUTH pack of any user. -/
def Bound (log : List Note) (u : ℤ) (c : ℕ) : Prop :=
  (∃ data, .accepted c u data ∈ log) ∨
    ∃ u' data, [.accepted c u' data, .touched c u].Sublist log

/-- What the log says of a registration. -/
structure Registered (C : Codec) (log : List Note) (u : ℤ) (c : ℕ) : Prop where
  authed : Authed C log c
  bound : Bound log u c

/-- What the log says of a message in memory. -/
structure Good (C : Codec) (log : List Note) (m : IMessage) : Prop where
  switchState : m.switchState = true → Authed C log m.conn
  msgState : m.state = MSG_STATE → Authed C log m.conn
  authState : m.state = AUTH_STATE → .received m.conn m.data ∈ log ∨ Authed C log m.conn

theorem Authed.mono (h : Authed C log c) (hlog : log.Sublist log') : Authed C log' c := by
  obtain ⟨uid, data, hsub, hpack⟩ := h
  exact ⟨uid, data, hsub.trans hlog, hpack⟩

theorem Registered.mono (h : Registered C log u c) (hlog : log.Sublist log') :
    Registered C log' u c := by
  refine ⟨h.authed.mono hlog, ?_⟩
  rcases h.bound with ⟨data, hmem⟩ | ⟨u', data, hsub⟩
  · exact Or.inl ⟨data, hlog.subset hmem⟩
  · exact Or.inr ⟨u', data, hsub.trans hlog⟩

theorem registered_lasting : Lasting (Registered C) :=
  fun _ _ _ _ hlog h => h.mono hlog

theorem Good.mono {m : IMessage} (h : Good C log m) (hlog : log.Sublist log') : Good C log' m :=
  ⟨fun hs => (h.switchState hs).mono hlog, fun hs => (h.msgState hs).mono hlog,
    fun hs => (h.authState hs).imp (fun hr => hlog.subset hr) fun ha => ha.mono hlog⟩

/-- Any message to an authenticated connection is good. -/
theorem Authed.good {m : IMessage} (h : Authed C log m.conn) : Good C log m :=
  ⟨fun _ => h, fun _ => h, fun _ => Or.inr h⟩

/-- An accepted pack that was received. -/
theorem Authed.accept {uid : ℤ} {data : List UInt8}
    (hreceived : .received c data ∈ log ∨ Authed C log c) (hpack : IsAuthPack C uid data) :
    Authed C (log ++ [.accepted c uid data]) c := by
  rcases hreceived with hmem | hauthed
  · exact ⟨uid, data, (List.singleton_sublist.mpr hmem).append (List.Sublist.refl _), hpack⟩
  · exact hauthed.mono (List.sublist_append_left _ _)

/-- Every pack that `ImMessageProcessor` accepted came from a connection that
had authenticated before. -/
def HandledAfter (C : Codec) (log : List Note) : Prop :=
  ∀ pre c post, log = pre ++ .handled c :: post → Authed C pre c

theorem HandledAfter.append {note : Note} (h : HandledAfter C log)
    (hnote : ∀ c, note = .handled c → Authed C log c) : HandledAfter C (log ++ [note]) := by
  intro pre c post hlog
  rcases post.eq_nil_or_concat with rfl | ⟨post, last, rfl⟩
  · obtain ⟨rfl, hlast⟩ := List.append_inj' hlog rfl
    exact hnote c (List.cons.inj hlast).1
  · rw [List.concat_eq_append, ← List.cons_append, ← List.append_assoc] at hlog
    exact h pre c post (List.append_inj' hlog rfl).1

theorem HandledAfter.append_list {notes : List Note} (h : HandledAfter C log)
    (hnotes : ∀ c, .handled c ∉ notes) : HandledAfter C (log ++ notes) := by
  induction notes generalizing log with
  | nil =>
    rw [List.append_nil]
    exact h
  | cons note notes ih =>
    rw [List.append_cons]
    refine ih (h.append ?_) fun c hc => hnotes c (List.mem_cons_of_mem _ hc)
    rintro c rfl
    exact absurd List.mem_cons_self (hnotes c)

end Log

/-! ### The invariant -/

/-- The invariant of the pipeline. -/
structure Gate (P : Setup) (s : Pipeline) : Prop where
  heap : ∀ a, Good P.codec s.log (s.heap.msg a)
  objs : ∀ i o, ((s.ios i).objs o).2.state = MSG_STATE →
    Authed P.codec s.log ((s.ios i).objs o).2.id
  backed : Backed (Registered P.codec) s
  handled : HandledAfter P.codec s.log
  small : ∀ c data, .received c data ∈ s.log → c < 2 ^ 31
  books : ∀ i, IoApp.Books (s.ios i).sockQueue (s.thread i)

variable {P : Setup} {s s' : Pipeline}

theorem gate_start (P : Setup) : Gate P (start P) where
  heap _ := ⟨(fun h => nomatch h), (fun h => nomatch h), fun h => nomatch h⟩
  objs _ _ h := nomatch h
  backed := backed_start P
  handled pre _ post h := by
    exact absurd h.symm (List.append_ne_nil_of_right_ne_nil _ (List.cons_ne_nil _ _))
  small _ _ h := nomatch h
  books i := (IoApp.books_new i P.limits Heap.empty none (P.clock i)).reload _ _ _ le_rfl

/-- A connection that has authenticated has a small id. -/
theorem Gate.lt_of_authed {c : ℕ} (h : Gate P s) (hc : Authed P.codec s.log c) : c < 2 ^ 31 := by
  obtain ⟨uid, data, hsub, -⟩ := hc
  exact h.small c data (hsub.subset List.mem_cons_self)

/-- A step in which no IO thread takes part and nothing is noted. -/
theorem Gate.of_shared (h : Gate P s) (hbacked : Backed (Registered P.codec) s')
    (hios : s'.ios = s.ios) (hid : s'.lastId = s.lastId) (hlog : s'.log = s.log)
    (hheap : ∀ a, Good P.codec s.log (s'.heap.msg a)) : Gate P s' := by
  refine ⟨?_, ?_, hbacked, ?_, ?_, ?_⟩
  · rw [hlog]
    exact hheap
  · rw [hlog, hios]
    exact h.objs
  · rw [hlog]
    exact h.handled
  · rw [hlog]
    exact h.small
  · intro i
    have hb := (h.books i).reload s'.heap (some s'.collector) [] (le_refl s.lastId)
    rw [Pipeline.thread, hios, hid]
    exact hb

/-- A step that moves messages from one list to another. -/
theorem Gate.of_moved (h : Gate P s) (hbacked : Backed (Registered P.codec) s')
    (hios : s'.ios = s.ios) (hid : s'.lastId = s.lastId) (hlog : s'.log = s.log)
    (hmsg : s'.heap.msg = s.heap.msg) : Gate P s' := by
  refine h.of_shared hbacked hios hid hlog ?_
  rw [hmsg]
  exact h.heap

/-! ### IO threads -/

/-- The dispatcher only marks messages that were received. -/
theorem dispatch_good {C : Codec} {log : List Note} (msgs : List (Addr × IMessage))
    (D : ImMessageDispatcher) (H : Heap) (hgood : ∀ a, Good C log (H.msg a))
    (hreceived : ∀ a ∈ msgs.map Prod.fst, .received (H.msg a).conn (H.msg a).data ∈ log)
    (a : Addr) :
    Good C log ((msgs.foldl (fun r e => r.1.process e.1 r.2) (D, H)).2.msg a) := by
  induction msgs generalizing D H with
  | nil => exact hgood a
  | cons e msgs ih =>
    have hhead := hreceived e.1 List.mem_cons_self
    refine ih (D.process e.1 H).1 (D.process e.1 H).2 ?_ ?_
    · intro b
      have hb := hgood e.1
      rcases D.process_msg e.1 b H with hsame | ⟨-, hauth | hmsg⟩
      · rw [hsame]
        exact hgood b
      · rw [hauth]
        exact ⟨hb.switchState, (fun hs => nomatch hs), fun _ => Or.inl hhead⟩
      · rw [hmsg]
        exact ⟨hb.switchState, hb.msgState, hb.authState⟩
    · intro b hb
      rcases D.process_msg e.1 b H with hsame | ⟨rfl, hauth | hmsg⟩
      · rw [hsame]
        exact hreceived b (List.mem_cons_of_mem _ hb)
      · rw [hauth]
        exact hhead
      · rw [hmsg]
        exact hhead

/-- **A step of an IO thread**, from what is known of the thread after it. -/
theorem Gate.store {i : ℕ} {t : IoApp} (h : Gate P s) (hbooks : IoApp.Books t.sockQueue t)
    (hid : s.lastId ≤ t.lastId)
    (hframes : ∀ e ∈ t.processed, e.2.conn < 2 ^ 31 ∧ e.2.switchState = false ∧
      (e.2.state = MSG_STATE → Authed P.codec s.log e.2.conn))
    (hmsgs : ∀ a, (a ∉ t.processed.map Prod.fst ∧ t.heap.msg a = s.heap.msg a) ∨
      (a, t.heap.msg a) ∈ t.processed)
    (hobjs : ∀ o, (t.objs o).2.state = MSG_STATE → Authed P.codec s.log (t.objs o).2.id) :
    Gate P (s.store i t) := by
  -- what the thread received is noted before the dispatcher gets it
  have hlog : s.log.Sublist (s.store i t).log := List.sublist_append_left _ _
  have hios : (s.store i t).ios = Function.update s.ios i t := rfl
  have hnoted : ∀ e ∈ t.processed, .received e.2.conn e.2.data ∈ (s.store i t).log := by
    intro e he
    exact List.mem_append_right _ (List.mem_map.mpr ⟨e, he, rfl⟩)
  refine ⟨?_, ?_, h.backed.store registered_lasting i t, ?_, ?_, ?_⟩
  · refine dispatch_good t.processed s.dispatcher t.heap ?_ ?_
    · -- the messages from frames have not been marked yet
      intro a
      rcases hmsgs a with ⟨-, hsame⟩ | hnew
      · rw [hsame]
        exact (h.heap a).mono hlog
      · obtain ⟨-, hswitch, hstate⟩ := hframes _ hnew
        refine ⟨fun hs => ?_, fun hs => (hstate hs).mono hlog, fun _ => Or.inl (hnoted _ hnew)⟩
        rw [hswitch] at hs
        cases hs
    · intro a ha
      rcases hmsgs a with ⟨hnot, -⟩ | hnew
      · exact absurd ha hnot
      · exact hnoted _ hnew
  · intro j o hs
    rw [hios] at hs ⊢
    rcases eq_or_ne j i with rfl | hne
    · rw [Function.update_self] at hs ⊢
      exact (hobjs o hs).mono hlog
    · rw [Function.update_of_ne hne] at hs ⊢
      exact (h.objs j o hs).mono hlog
  · refine h.handled.append_list ?_
    intro c hc
    obtain ⟨e, -, he⟩ := List.mem_map.mp hc
    cases he
  · intro c data hc
    rcases List.mem_append.mp hc with hc | hc
    · exact h.small c data hc
    · obtain ⟨e, he, hnote⟩ := List.mem_map.mp hc
      obtain ⟨rfl, -⟩ := Note.received.inj hnote
      exact (hframes e he).1
  · intro j
    rw [Pipeline.thread, hios]
    rcases eq_or_ne j i with rfl | hne
    · rw [Function.update_self]
      exact hbooks.reload _ _ _ le_rfl
    · rw [Function.update_of_ne hne]
      exact (h.books j).reload _ _ _ hid

/-- The ids of open connections have been issued. -/
theorem Gate.live_lt {i : ℕ} {o : Obj} (h : Gate P s) (hids : s.lastId < 2 ^ 31)
    (hlive : (s.thread i).Live o) : ((s.ios i).objs o).2.id < 2 ^ 31 := by
  have hentry := ((h.books i).entry _ o).mpr ⟨hlive, rfl⟩
  have happ := (h.books i).appId o hlive.1
  have hissued := (h.books i).issuedEntry _ hentry
  exact (happ.trans_le hissued).trans_lt hids

/-- The assumptions on a run: connection ids stay below `2 ^ 31`, and no
connection is destroyed twice. -/
structure Usable (s : Pipeline) : Prop where
  ids : s.lastId < 2 ^ 31
  once : ∀ i o, o < (s.ios i).brk → (s.ios i).tears o ≤ 1

/-- The books after a step of the thread. -/
theorem Gate.books_step {i : ℕ} {e : Event} {t' : IoApp} (h : Gate P s) (hs : Usable s)
    (honce : ∀ o < t'.brk, t'.tears o ≤ 1) (hstep : (s.thread i).step e = some t') :
    IoApp.Books t'.sockQueue t' ∧ s.lastId ≤ t'.lastId := by
  have hids : IoApp.IdsLeft (s.thread i) e := fun _ => (Nat.succ_lt_succ hs.ids).trans (by decide)
  refine ⟨(h.books i).step hids ((h.books i).sharp hstep honce) hstep, ?_⟩
  rw [IoApp.step_lastId hids hstep]
  exact Nat.le_add_right _ _

/-- **An event of an IO thread.** -/
theorem Gate.ioStep {i : ℕ} {e : Event} {t' : IoApp} (h : Gate P s) (hs : Usable s)
    (hev : s.Handles i t' e) (honce : ∀ o < t'.brk, t'.tears o ≤ 1) : Gate P (s.store i t') := by
  obtain ⟨hstep, hpush, houtside⟩ := hev
  obtain ⟨hbooks, hid⟩ := h.books_step hs honce hstep
  have hmoves := IoApp.step_moves rfl hpush houtside hstep
  refine h.store hbooks hid ?_ hmoves.msgs ?_
  · intro m hm
    obtain ⟨o, hlive, hconn, hstate, hswitch⟩ := hmoves.frames m hm
    refine ⟨hconn.trans_lt (h.live_lt hs.ids hlive), hswitch, fun hmsg => ?_⟩
    rw [hconn]
    exact h.objs i o (hstate.symm.trans hmsg)
  · intro o hmsg
    obtain ⟨hold, hsame⟩ := hmoves.states o hmsg
    rw [hsame]
    exact h.objs i o hold

/-- **A push** into `MSG_STATE` is asked for by a message whose connection
has authenticated. -/
theorem Gate.pushStep {i : ℕ} {v : Addr} {t' : IoApp} (h : Gate P s) (hs : Usable s)
    (honce : ∀ o < t'.brk, t'.tears o ≤ 1) (hstep : (s.thread i).step (.push v) = some t') :
    Gate P (s.store i t') := by
  obtain ⟨hbooks, hid⟩ := h.books_step hs honce hstep
  obtain rfl : t' = (s.thread i).pushMessage v := by
    obtain ⟨-, hhappens⟩ := IoApp.step_happens hstep
    cases hhappens
    rfl
  obtain ⟨hnone, hmsg, hstates⟩ := IoApp.pushMessage_moves (t := s.thread i) (h.books i) v
  have hnil : ((s.thread i).pushMessage v).processed = [] := hnone
  refine h.store hbooks hid ?_ ?_ ?_
  · rw [hnil]
    exact fun _ he => nomatch he
  · intro a
    rw [hnil, hmsg]
    exact Or.inl ⟨List.not_mem_nil, rfl⟩
  · -- an object in `MSG_STATE` was there before, or the message put it there
    intro o hstate
    rcases hstates o hstate with ⟨hold, hsame⟩ | ⟨hswitch, hconn⟩
    · rw [hsame]
      exact h.objs i o hold
    · rw [hconn]
      exact (h.heap v).switchState hswitch

/-! ### Workers -/

/-- A reply that kicks the connection says no more than the message did. -/
theorem Good.error {C : Codec} {log : List Note} {v : Addr} {H : Heap}
    (h : ∀ a, Good C log (H.msg a)) (a : Addr) :
    Good C log ((Processed.error v H).heap.msg a) := by
  rcases H.setMsg_cases v a (processErrorPack (H.msg v)) with hsame | ⟨-, herror⟩
  · exact hsame.symm ▸ h a
  · have hv := h v
    exact herror.symm ▸ ⟨hv.switchState, hv.msgState, hv.authState⟩

/-- What a worker leaves behind, and what is noted meanwhile, is in order. -/
structure Fine (C : Codec) (log notes : List Note) (r : Processed) : Prop where
  heap : ∀ a, Good C (log ++ notes) (r.heap.msg a)
  update : Backs (Registered C) (log ++ notes) r
  handled : HandledAfter C log → HandledAfter C (log ++ notes)
  received : ∀ c data, .received c data ∉ notes

theorem fine_error {C : Codec} {log : List Note} {v : Addr} {H : Heap}
    (h : ∀ a, Good C log (H.msg a)) : Fine C log [] (Processed.error v H) := by
  refine ⟨?_, ?_, ?_, fun _ _ hc => nomatch hc⟩
  · rw [List.append_nil]
    exact Good.error h
  · intro ch hch
    cases List.mem_singleton.mp hch
  · rw [List.append_nil]
    exact fun hlog => hlog

/-- **An auth worker** that accepts a pack notes it, so the connection has
authenticated before it is registered and switched. -/
theorem fine_auth {log : List Note} {H : Heap} (now : ℤ) (v : Addr)
    (h : ∀ a, Good P.codec log (H.msg a)) :
    Fine P.codec log (authNotes P now (H.msg v))
      (ImMessageAuthProcessor.process P.codec P.host now v H) := by
  have hregister := auth_accepted P now v H
  rcases haccept : ImMessageAuthProcessor.accept P.codec now (H.msg v) with - | reply
  · rw [authNotes, ImMessageAuthProcessor.process, haccept]
    exact fine_error h
  · obtain ⟨hstate, hpack, hconn⟩ := ImMessageAuthProcessor.accept_some haccept
    rw [authNotes, ImMessageAuthProcessor.process, haccept]
    rw [authNotes, ImMessageAuthProcessor.process, haccept] at hregister
    have hauthed : Authed P.codec
        (log ++ [.accepted (H.msg v).conn reply.uid (H.msg v).data]) (H.msg v).conn :=
      Authed.accept ((h v).authState hstate) hpack
    refine ⟨?_, ?_, ?_, ?_⟩
    · -- the reply is the only message that was written
      intro a
      rcases H.setMsg_cases v a reply with hsame | ⟨-, hreply⟩
      · exact hsame.symm ▸ (h a).mono (List.sublist_append_left _ _)
      · refine hreply.symm ▸ Authed.good ?_
        rw [hconn]
        exact hauthed
    · intro ch hch
      have hmem := hregister ch hch
      obtain ⟨hsame, -⟩ := Note.accepted.inj (List.mem_singleton.mp hmem)
      exact ⟨hsame.symm ▸ hauthed, Or.inl ⟨_, List.mem_append_right _ hmem⟩⟩
    · intro hlog
      refine hlog.append ?_
      rintro c ⟨⟩
    · intro c data hc
      cases List.mem_singleton.mp hc

/-- **An app worker** accepts packs of connections that have authenticated,
since their messages say so. -/
theorem fine_app {log : List Note} {H : Heap} (now : ℤ) (mid : List UInt8) (ret : Bool) (v : Addr)
    (h : ∀ a, Good P.codec log (H.msg a)) :
    Fine P.codec log (appNotes P now mid ret v H)
      (ImMessageProcessor.process P.codec P.host now mid ret P.collects v H) := by
  have hregister := app_touched P now mid ret v H
  rcases hhandle : ImMessageProcessor.handle P.codec P.host now mid ret P.collects v H with - | r
  · rw [appNotes, ImMessageProcessor.process, hhandle]
    exact fine_error h
  · obtain ⟨hstate, hheap, hupdate⟩ := ImMessageProcessor.handle_replies hhandle
    have hauthed := (h v).msgState hstate
    rw [appNotes, ImMessageProcessor.process, hhandle]
    rw [appNotes, ImMessageProcessor.process, hhandle] at hregister
    have hlog : log.Sublist (log ++ (touches r ++ [.handled (H.msg v).conn])) :=
      List.sublist_append_left _ _
    refine ⟨?_, ?_, ?_, ?_⟩
    · intro a
      rcases hheap a with hsame | hconn
      · exact hsame.symm ▸ (h a).mono hlog
      · exact Authed.good (hconn.symm ▸ hauthed.mono hlog)
    · -- the accepted IM_AUTH pack is in the log, and the IM_TOUCH pack is noted now
      intro ch hch
      have hconn := hupdate ch hch
      refine ⟨hconn.symm ▸ hauthed.mono hlog, Or.inr ?_⟩
      obtain ⟨uid, data, hsub, -⟩ := hauthed
      have hfirst : [.accepted ch.conn uid data].Sublist log := by
        rw [hconn]
        exact (List.sublist_cons_self _ _).trans hsub
      exact ⟨uid, data, hfirst.append (List.singleton_sublist.mpr (hregister ch hch))⟩
    · intro hafter
      show HandledAfter P.codec (log ++ (touches r ++ [.handled (H.msg v).conn]))
      rw [← List.append_assoc]
      refine (hafter.append_list ?_).append ?_
      · intro c hc
        obtain ⟨ch, hnote⟩ := mem_touches hc
        cases hnote
      · rintro c ⟨⟩
        exact hauthed.mono (List.sublist_append_left _ _)
    · intro c data hc
      rcases List.mem_append.mp hc with hc | hc
      · obtain ⟨ch, hnote⟩ := mem_touches hc
        cases hnote
      · cases List.mem_singleton.mp hc

/-- **A step of a worker**: messages are written, calls are planned, and
notes are taken. -/
theorem Gate.works {notes : List Note} {r : Processed} (h : Gate P s)
    (hbacked : Backed (Registered P.codec) s') (hworks : s.Works s' notes r)
    (hfine : Fine P.codec s.log notes r) : Gate P s' := by
  obtain ⟨hios, hid, -, hheap, -, hlog⟩ := hworks
  refine ⟨?_, ?_, hbacked, ?_, ?_, ?_⟩
  · rw [hlog, hheap]
    exact hfine.heap
  · rw [hlog, hios]
    exact fun i o hs => (h.objs i o hs).mono (List.sublist_append_left _ _)
  · rw [hlog]
    exact hfine.handled h.handled
  · intro c data hc
    rw [hlog] at hc
    rcases List.mem_append.mp hc with hc | hc
    · exact h.small c data hc
    · exact absurd hc (hfine.received c data)
  · intro i
    rw [Pipeline.thread, hios, hid]
    exact (h.books i).reload s'.heap (some s'.collector) [] (le_refl s.lastId)

/-! ### The router, the collector and the broker -/

/-- The detour through an `int` keeps the id of a registered connection. -/
theorem Gate.conn_eq {u : ℤ} {ch : IoChannel} (h : Gate P s)
    (hch : s.router.registerTableLocal.map u = some ch) : toUInt64 (toInt32 ch.conn) = ch.conn := by
  have hsmall := h.lt_of_authed (h.backed.table u ch hch).authed
  rw [toInt32_natCast hsmall]
  exact toUInt64_natCast (hsmall.trans (by norm_num))

theorem Gate.routes (h : Gate P s) : Routes (Registered P.codec s.log) s := by
  refine routes_of_table ?_
  intro u ch hch
  rw [h.conn_eq hch]
  exact ⟨h.backed.table u ch hch, h.backed.table u ch hch⟩

/-- Messages that are unchanged, or to registered connections. -/
theorem Gate.good_of_routes {u : ℤ} {a : Addr} {m : IMessage} (h : Gate P s)
    (hm : m = s.heap.msg a ∨ Registered P.codec s.log u m.conn) : Good P.codec s.log m := by
  rcases hm with rfl | hregistered
  · exact h.heap a
  · exact hregistered.authed.good

/-! ### Runs -/

/-- What is assumed of the threads after a step holds of the one that took it. -/
theorem Usable.of_store {i : ℕ} {t : IoApp} (hs : Usable s')
    (hios : s'.ios = Function.update s.ios i t) (o : Obj) (ho : o < t.brk) : t.tears o ≤ 1 := by
  have honce := hs.once i o
  rw [hios, Function.update_self] at honce
  exact honce ho

/-- **No step of any thread breaks the invariant.** -/
theorem Gate.step {e : Step} (h : Gate P s) (hs : Usable s) (hs' : Usable s')
    (hstep : step P s e = some s') : Gate P s' := by
  have hbacked : Backed (Registered P.codec) s' :=
    h.backed.step registered_lasting (fun now v => (fine_auth now v h.heap).update)
      (fun now mid ret v => (fine_app now mid ret v h.heap).update) hstep
  cases step_change hstep with
  | io hio hev => exact h.ioStep hs hev (hs'.of_store (s := s) rfl)
  | @push i v t list ht =>
    -- the message is unlinked from the list before it is pushed
    have hcut : Gate P { s with heap := s.heap.setNext v none } :=
      h.of_moved ⟨h.backed.table, h.backed.calls⟩ rfl rfl rfl rfl
    have hstored := hcut.pushStep ⟨hs.ids, hs.once⟩ (hs'.of_store (s := s) rfl) ht
    exact hstored.of_moved hbacked rfl rfl rfl rfl
  | moved hmoved => exact h.of_moved hbacked hmoved.ios hmoved.lastId hmoved.log hmoved.msg
  | auth hworks => exact h.works hbacked hworks (fine_auth _ _ h.heap)
  | app hworks => exact h.works hbacked hworks (fine_app _ _ _ _ h.heap)
  | call hk =>
    obtain ⟨hios, hid, hlog, hmsg⟩ := perform_rest { s with calls := s.calls.set _ _ } _
    exact h.of_moved hbacked hios hid hlog hmsg
  | collect hv =>
    exact h.of_shared hbacked rfl rfl rfl fun a => h.good_of_routes (h.routes.collect _ hv a)
  | deliver uid data =>
    obtain ⟨hios, hid, hlog, -⟩ := s.deliver_rest uid data
    exact h.of_shared hbacked hios hid hlog fun a => h.good_of_routes (h.routes.deliver uid data a)

/-- What follows from the invariant holds in every state of a usable run. -/
theorem always_of_gate {I : Pipeline → Prop} (hI : ∀ s, Gate P s → I s) {es : List Step}
    (h : Always (Pipeline.step P) Usable (start P) es) :
    Always (Pipeline.step P) I (start P) es := by
  refine Always.of_guarded ?_ hI (gate_start P) h.guarded
  intro s e s' hgate hguard hstep
  exact hgate.step hguard.1 (hguard.2 s' hstep) hstep

/-- What `Usable` says of the first `n` IO threads, which can be checked. -/
def UsableUpTo (n : ℕ) (s : Pipeline) : Prop :=
  s.lastId < 2 ^ 31 ∧ ∀ i < n, ∀ o < (s.ios i).brk, (s.ios i).tears o ≤ 1

instance (n : ℕ) : DecidablePred (UsableUpTo n) := fun _ => inferInstanceAs (Decidable (_ ∧ _))

/-- IO threads that never take a step have no connections. -/
theorem always_usable {n : ℕ} {es : List Step} (hes : ∀ e ∈ es, ∀ i, e.io = some i → i < n)
    (h : Always (Pipeline.step P) (UsableUpTo n) (start P) es) :
    Always (Pipeline.step P) Usable (start P) es := by
  have hio : Guarded (Pipeline.step P) (fun _ e => ∀ i, e.io = some i → i < n) (start P) es :=
    Guarded.of_forall fun e he _ => hes e he
  refine Always.of_guarded (I := fun s => UsableUpTo n s ∧ ∀ i, n ≤ i → (s.ios i).brk = 0)
    ?_ ?_ ⟨h.head, fun _ _ => rfl⟩ (h.guarded.and hio)
  · rintro s e s' ⟨-, hbrk⟩ ⟨⟨-, hnext⟩, hlt⟩ hstep
    refine ⟨hnext s' hstep, fun i hi => ?_⟩
    rw [step_ios hstep fun he => (hlt i he).not_ge hi]
    exact hbrk i hi
  · rintro s ⟨⟨hids, honce⟩, hbrk⟩
    refine ⟨hids, fun i o ho => ?_⟩
    rcases lt_or_ge i n with hi | hi
    · exact honce i hi o ho
    · rw [hbrk i hi] at ho
      exact absurd ho (Nat.not_lt_zero o)

/-! #### A small setup -/

/-- An IM_AUTH pack of user 7 with the token `t`. -/
def authBytes : List UInt8 := [0x08, 5, 0x12, 7, 0x2A, 5, 0x08, 7, 0x12, 1, 0x74]

/-- An IM_TOUCH pack that names user 8. -/
def touchBytes : List UInt8 := [0x08, 1, 0x12, 4, 0x0A, 2, 0x08, 8]

/-- What protobuf makes of these two packs, and of the replies to them ten
seconds into 2015. -/
def twoPacks : Codec where
  parse b :=
    if b = authBytes then
      some { type := some .auth, content := some { authReq := some ⟨some 7, some [0x74]⟩ } }
    else if b = touchBytes then
      some { type := some .touch, content := some { touch := some ⟨some 8⟩ } }
    else none
  serialize pack :=
    if pack.type = some .authResponse then
      [0x08, 6, 0x12, 7, 0x32, 5, 0x0A, 1, 0x74, 0x10, 1, 0x18, 10]
    else [0x08, 2, 0x12, 4, 0x12, 2, 0x08, 8, 0x18, 10]

/-- One IO thread. -/
def oneThread : Setup :=
  ⟨twoPacks, 1, 1, (9, 9, 9), fun _ _ => TIMESTAMP_20150101000000 + 10, true⟩

/-- The first connection authenticates as user 7. -/
def login : List Step :=
  [.accept 0 5, .newConnection 0,
    .read 0 0 1024 ([0, 0, 0, 15, 0x6D, 0x69, 0x6D, 0x69] ++ authBytes) true [.take 8, .take 11],
    .authTake, .authProcess 0 (TIMESTAMP_20150101000000 + 10),
    -- the calls `update` and `routeBack`
    .call 0, .call 0,
    .routerTake, .routerDispatch, .pushTake 0, .push 0]

/-! #### Results -/

end Pipeline

end Xkim
