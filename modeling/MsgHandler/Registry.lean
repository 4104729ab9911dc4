/-
MsgHandler/Registry.lean

What is behind an entry of the register table.

The table is written by `update` calls of the two processors only, and a
look-up for a message that could not be sent may erase an entry.  So whatever
relation of users and connections holds when a processor plans an `update`,
and is not lost when the log grows, holds of every entry of the table in every
run (`Backed.step`), and of the connections to which messages for a user are
sent (`routes_of_table`).
-/
import MsgHandler.Pipeline

namespace Xkim

namespace Pipeline

variable {P : Setup} {s s' : Pipeline} {B : List Note → ℤ → ℕ → Prop}

/-- A relation that is not lost when more is noted. -/
def Lasting (B : List Note → ℤ → ℕ → Prop) : Prop :=
  ∀ log log' u c, log.Sublist log' → B log u c → B log' u c

/-- The relation holds of the entries of the table and of the `update` calls
to come. -/
structure Backed (B : List Note → ℤ → ℕ → Prop) (s : Pipeline) : Prop where
  table : ∀ u ch, s.router.registerTableLocal.map u = some ch → B s.log u ch.conn
  calls : ∀ l ∈ s.calls, ∀ ch, .update ch ∈ l → B s.log ch.uid ch.conn

/-- The relation holds of the `update` calls that a worker plans. -/
def Backs (B : List Note → ℤ → ℕ → Prop) (log : List Note) (r : Processed) : Prop :=
  ∀ ch, .update ch ∈ r.effects → B log ch.uid ch.conn

theorem backed_start (P : Setup) : Backed B (start P) where
  table _ _ h := nomatch h
  calls _ h := nomatch h

/-- A step that registers no one and plans no `update`. -/
theorem Backed.of_less {p : List (List Effect)} (h : Backed B s) (hB : Lasting B)
    (hlog : s.log.Sublist s'.log)
    (htable : ∀ u ch, s'.router.registerTableLocal.map u = some ch →
      s.router.registerTableLocal.map u = some ch)
    (hcalls : s'.calls = s.calls ++ p) (hplan : ∀ l ∈ p, ∀ ch, .update ch ∉ l) :
    Backed B s' := by
  refine ⟨?_, ?_⟩
  · intro u ch hch
    exact hB _ _ _ _ hlog (h.table u ch (htable u ch hch))
  · intro l hl ch hch
    rw [hcalls] at hl
    rcases List.mem_append.mp hl with hl | hl
    · exact hB _ _ _ _ hlog (h.calls l hl ch hch)
    · exact absurd hch (hplan l hl ch)

theorem Backed.of_same (h : Backed B s) (hB : Lasting B) (hlog : s.log.Sublist s'.log)
    (htable : s'.router.registerTableLocal = s.router.registerTableLocal)
    (hcalls : s'.calls = s.calls) : Backed B s' := by
  refine h.of_less (p := []) hB hlog ?_ ?_ fun _ hl => nomatch hl
  · rw [htable]
    exact fun _ _ hch => hch
  · rw [hcalls, List.append_nil]

/-- A step of an IO thread only adds to the log. -/
theorem Backed.store (h : Backed B s) (hB : Lasting B) (i : ℕ) (t : IoApp) :
    Backed B (s.store i t) :=
  h.of_same hB (List.sublist_append_left _ _) rfl rfl

/-- A worker plans calls and takes notes. -/
theorem Backed.works {notes : List Note} {r : Processed} (h : Backed B s) (hB : Lasting B)
    (hworks : s.Works s' notes r) (hr : Backs B (s.log ++ notes) r) : Backed B s' := by
  have hsub : s.log.Sublist (s.log ++ notes) := List.sublist_append_left _ _
  refine ⟨?_, ?_⟩
  · rw [hworks.log, hworks.router]
    exact fun u ch hch => hB _ _ _ _ hsub (h.table u ch hch)
  · intro l hl ch hch
    rw [hworks.log]
    rw [hworks.calls] at hl
    rcases List.mem_append.mp hl with hl | hl
    · exact hB _ _ _ _ hsub (h.calls l hl ch hch)
    · rw [List.mem_singleton.mp hl] at hch
      exact hr ch hch

theorem Backed.perform {e : Effect} (h : Backed B s) (hB : Lasting B)
    (he : ∀ ch, e = .update ch → B s.log ch.uid ch.conn) : Backed B (s.perform e) := by
  cases e with
  | update ch =>
    refine ⟨?_, h.calls⟩
    intro u ch' hch'
    rcases eq_or_ne u ch.uid with rfl | hne
    · obtain rfl := Option.some.inj ((Function.update_self ch.uid _ _).symm.trans hch')
      exact he _ rfl
    · exact h.table u ch' ((Function.update_of_ne hne ..).symm.trans hch')
  | routeBack v | collect v | release v | releaseList v | publish uid | dispatch v =>
    exact h.of_same hB (List.Sublist.refl _) rfl rfl

/-- A call that was planned is made. -/
theorem Backed.call {k : ℕ} {e : Effect} {rest : List Effect} (h : Backed B s) (hB : Lasting B)
    (hk : s.calls[k]? = some (e :: rest)) :
    Backed B ({ s with calls := s.calls.set k rest }.perform e) := by
  have hmem := List.mem_of_getElem? hk
  have hrest : Backed B { s with calls := s.calls.set k rest } := by
    refine ⟨h.table, ?_⟩
    intro l hl ch hch
    rcases List.mem_or_eq_of_mem_set hl with hl | rfl
    · exact h.calls l hl ch hch
    · exact h.calls _ hmem ch (List.mem_cons_of_mem _ hch)
  refine hrest.perform hB ?_
  rintro ch rfl
  exact h.calls _ hmem ch List.mem_cons_self

/-- **What is behind the entries of the table**, after a step of any thread. -/
theorem Backed.step {e : Step} (h : Backed B s) (hB : Lasting B)
    (hauth : ∀ now v, Backs B (s.log ++ authNotes P now (s.heap.msg v))
      (ImMessageAuthProcessor.process P.codec P.host now v s.heap))
    (happ : ∀ now mid ret v, Backs B (s.log ++ appNotes P now mid ret v s.heap)
      (ImMessageProcessor.process P.codec P.host now mid ret P.collects v s.heap))
    (hstep : step P s e = some s') : Backed B s' := by
  cases step_change hstep with
  | io hio hev => exact h.store hB _ _
  | push ht => exact h.of_same hB (List.sublist_append_left _ _) rfl rfl
  | moved hmoved =>
    refine h.of_same hB ?_ hmoved.table hmoved.calls
    rw [hmoved.log]
  | auth hworks => exact h.works hB hworks (hauth _ _)
  | app hworks => exact h.works hB hworks (happ _ _ _ _)
  | call hk => exact h.call hB hk
  | collect hv =>
    -- a look-up may erase an entry
    refine h.of_less hB (List.Sublist.refl _) (s.lookUp_table _).table rfl ?_
    intro l hl ch
    rw [List.mem_singleton.mp hl]
    exact update_not_mem_collectCalls _ _ ch
  | deliver uid data =>
    obtain ⟨-, -, hlog, hrouter, plan, hcalls, hplan⟩ := s.deliver_rest uid data
    refine h.of_less hB ?_ ?_ hcalls hplan
    · rw [hlog]
    · rw [hrouter]
      exact fun _ _ hch => hch

/-! ### What the workers register -/

/-- The `update` of an auth worker is for the user of the IM_AUTH pack that it
accepted. -/
theorem auth_accepted (P : Setup) (now : ℤ) (v : Addr) (H : Heap) (ch : IoChannel)
    (hch : .update ch ∈ (ImMessageAuthProcessor.process P.codec P.host now v H).effects) :
    .accepted ch.conn ch.uid (H.msg v).data ∈ authNotes P now (H.msg v) := by
  rw [ImMessageAuthProcessor.process] at hch
  rw [authNotes]
  rcases haccept : ImMessageAuthProcessor.accept P.codec now (H.msg v) with - | reply
  · -- a pack that is refused is only sent back
    rw [haccept] at hch
    cases List.mem_singleton.mp hch
  · rw [haccept] at hch
    simp only [List.mem_cons, Effect.update.injEq, reduceCtorEq, List.not_mem_nil,
      or_false] at hch
    subst hch
    obtain ⟨-, -, hconn⟩ := ImMessageAuthProcessor.accept_some haccept
    rw [List.mem_singleton, ← hconn]
    rfl

/-- The `update` of an app worker is for the user that the IM_TOUCH pack
names. -/
theorem app_touched (P : Setup) (now : ℤ) (mid : List UInt8) (ret : Bool) (v : Addr) (H : Heap)
    (ch : IoChannel)
    (hch : .update ch ∈
      (ImMessageProcessor.process P.codec P.host now mid ret P.collects v H).effects) :
    .touched ch.conn ch.uid ∈ appNotes P now mid ret v H := by
  rw [ImMessageProcessor.process] at hch
  rw [appNotes]
  rcases hhandle : ImMessageProcessor.handle P.codec P.host now mid ret P.collects v H with - | r
  · rw [hhandle] at hch
    cases List.mem_singleton.mp hch
  · rw [hhandle] at hch
    refine List.mem_append_left _ ?_
    exact List.mem_filterMap.mpr ⟨_, hch, rfl⟩

/-! ### Where messages for a user are sent -/

/-- The relation holds of the user and the connection of every message that
`collect` sends on, and of every message from the broker. -/
structure Routes (R : ℤ → ℕ → Prop) (s : Pipeline) : Prop where
  collect : ∀ v ∈ s.groups, ∀ a, (s.lookUp v).2.2.msg a = s.heap.msg a ∨
    R (s.heap.msg v).uid ((s.lookUp v).2.2.msg a).conn
  deliver : ∀ uid data a, (s.deliver uid data).heap.msg a = s.heap.msg a ∨
    R uid ((s.deliver uid data).heap.msg a).conn

/-- **Messages are sent where the table says**; `failureRoute` passes the id of
the connection through an `int`. -/
theorem routes_of_table {R : ℤ → ℕ → Prop}
    (h : ∀ u ch, s.router.registerTableLocal.map u = some ch →
      R u ch.conn ∧ R u (toUInt64 (toInt32 ch.conn))) : Routes R s := by
  refine ⟨?_, ?_⟩
  · intro v _ a
    rcases (s.lookUp_table v).msg a with hsame | ⟨ch, hch, hset⟩
    · exact Or.inl hsame
    · right
      rw [hset, IMessage.setChannel_conn]
      exact (h _ ch hch).2
  · intro uid data a
    unfold Pipeline.deliver
    split
    · exact Or.inl rfl
    · rename_i channel hchannel
      split
      · exact Or.inl rfl
      · rcases s.heap.setMsg_cases s.heap.brk a _ with hsame | ⟨-, hnew⟩
        · exact Or.inl hsame
        · right
          have hconn := congrArg IMessage.conn hnew
          exact hconn.symm ▸ (h uid channel hchannel).1

theorem Routes.mono {R R' : ℤ → ℕ → Prop} (h : Routes R s) (hR : ∀ u c, R u c → R' u c) :
    Routes R' s := by
  refine ⟨?_, ?_⟩
  · intro v hv a
    exact (h.collect v hv a).imp_right (hR _ _)
  · intro uid data a
    exact (h.deliver uid data a).imp_right (hR _ _)

end Pipeline

end Xkim
