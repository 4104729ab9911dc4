/-
MsgHandler/IoMessages.lean

What an IO thread does to messages and to the state of its connections.

Handlers move messages between lists all the time, but they write a message
only when they create it: a frame becomes a message with the id and the state
of its connection (`Heard`).  From this follows what a step of the thread can
do (`Moves`).  Only `pushMessage` changes the state of an open connection,
when the message it pushes asks for it (`pushMessage_moves`).
-/
import MsgHandler.Accounting

namespace Xkim

/-! ### Handlers -/

/-- A message that was made from a frame of the connection. -/
structure FrameOf (c : IoAppConnection) (m : IMessage) : Prop where
  conn : m.conn = c.id
  state : m.state = c.state
  switchState : m.switchState = false

section Heard

variable {ω : Type}

/-- The messages `new` were created from frames; nothing else was written,
and the connection kept its id and state. -/
structure Heard (w w' : AppWorld ω) : Prop where
  id : w'.conn.id = w.conn.id
  state : w'.conn.state = w.conn.state
  msgs : ∃ new, w'.processed = w.processed ++ new ∧ (∀ e ∈ new, FrameOf w.conn e.2) ∧
    ∀ a, (a ∉ new.map Prod.fst ∧ w'.heap.msg a = w.heap.msg a) ∨ (a, w'.heap.msg a) ∈ new

variable {w w' w'' : AppWorld ω}

/-- Nothing was created. -/
theorem Heard.quiet (hid : w'.conn.id = w.conn.id) (hstate : w'.conn.state = w.conn.state)
    (hprocessed : w'.processed = w.processed) (hmsg : w'.heap.msg = w.heap.msg) : Heard w w' :=
  ⟨hid, hstate, [], by rw [hprocessed, List.append_nil], (fun _ he => nomatch he),
    fun a => Or.inl ⟨List.not_mem_nil, by rw [hmsg]⟩⟩

theorem Heard.refl (w : AppWorld ω) : Heard w w := Heard.quiet rfl rfl rfl rfl

theorem Heard.trans (h₁ : Heard w w') (h₂ : Heard w' w'') : Heard w w'' := by
  obtain ⟨new₁, hp₁, hf₁, hm₁⟩ := h₁.msgs
  obtain ⟨new₂, hp₂, hf₂, hm₂⟩ := h₂.msgs
  refine ⟨h₂.id.trans h₁.id, h₂.state.trans h₁.state, new₁ ++ new₂, ?_, ?_, ?_⟩
  · rw [hp₂, hp₁, List.append_assoc]
  · intro e he
    rcases List.mem_append.mp he with he | he
    · exact hf₁ e he
    · obtain ⟨hconn, hstate, hswitch⟩ := hf₂ e he
      exact ⟨hconn.trans h₁.id, hstate.trans h₁.state, hswitch⟩
  · intro a
    rcases hm₂ a with ⟨hnot₂, hsame₂⟩ | hin₂
    · rcases hm₁ a with ⟨hnot₁, hsame₁⟩ | hin₁
      · refine Or.inl ⟨?_, hsame₂.trans hsame₁⟩
        rw [List.map_append, List.mem_append, not_or]
        exact ⟨hnot₁, hnot₂⟩
      · rw [hsame₂]
        exact Or.inr (List.mem_append_left _ hin₁)
    · exact Or.inr (List.mem_append_right _ hin₂)

/-- A frame becomes one message, in memory that was free. -/
theorem Heard.whenReceivedFrame {mem : List UInt8} {b size r : ℤ}
    (h : AppWorld.whenReceivedFrame mem b size w = some (r, w')) : Heard w w' := by
  rcases AppWorld.whenReceivedFrame_cases h with ⟨-, rfl | rfl⟩ | ⟨-, -, -, -, rfl⟩
  · exact Heard.refl _
  · exact Heard.quiet rfl rfl rfl rfl
  · refine ⟨rfl, rfl, [_], rfl, ?_, ?_⟩
    · intro e he
      rw [List.mem_singleton.mp he]
      exact ⟨rfl, rfl, rfl⟩
    · intro a
      rcases eq_or_ne a w.heap.brk with rfl | hne
      · refine Or.inr (List.mem_singleton.mpr (Prod.ext rfl ?_))
        exact Function.update_self ..
      · refine Or.inl ⟨?_, Function.update_of_ne hne ..⟩
        rw [List.map_singleton, List.mem_singleton]
        exact hne

/-- Going over a list without writing messages. -/
theorem foldl_msg {f : Heap → Addr → Heap} (hf : ∀ H a, (f H a).msg = H.msg) (l : List Addr)
    (H : Heap) : (l.foldl f H).msg = H.msg := by
  induction l generalizing H with
  | nil => rfl
  | cons a l ih => exact (ih _).trans (hf H a)

theorem takeBack_heard (w : AppWorld ω) : Heard w w.takeBack := by
  unfold AppWorld.takeBack
  split
  · exact Heard.refl w
  · refine Heard.quiet rfl rfl rfl ?_
    dsimp only [IoPushList.putFirst, Heap.setNext]
    split <;> rfl

theorem handOver_heard (w : AppWorld ω) : Heard w w.handOver := by
  unfold AppWorld.handOver
  split
  · exact Heard.refl w
  · split
    · exact Heard.quiet rfl rfl rfl (foldl_msg (f := Heap.destroyPushData) (fun _ _ => rfl) _ _)
    · exact Heard.quiet rfl rfl rfl (foldl_msg (f := Heap.destroyMsgData) (fun _ _ => rfl) _ _)

/-- Closing a connection creates no message. -/
theorem Heard.whenClosed (w : AppWorld ω) : Heard w w.whenClosed :=
  (takeBack_heard w).trans (handOver_heard w.takeBack)

theorem Heard.getPushData (w : AppWorld ω) : Heard w w.getPushData.2 := by
  refine Heard.quiet rfl rfl rfl ?_
  unfold AppWorld.getPushData IoPushList.get
  dsimp only
  split <;> rfl

theorem heardRule (destroy : ℕ → ω → ω) : AppRule destroy Heard where
  refl := Heard.refl
  trans := Heard.trans
  pendingPushData _ _ := Heard.quiet rfl rfl rfl rfl
  whenClosed := Heard.whenClosed
  whenDestroy _ := Heard.quiet rfl rfl rfl rfl
  getPushData := Heard.getPushData
  destroyMsgData _ _ := Heard.quiet rfl rfl rfl rfl
  setWpos _ _ _ := Heard.quiet rfl rfl rfl rfl

/-- **Read events** create messages from frames only. -/
theorem heardRead (destroy : ℕ → ω → ω) :
    ReadRule (appHooks destroy) fun m m' => Heard m.app m'.app :=
  (heardRule destroy).read Heard.whenReceivedFrame

/-- **Write events** create none. -/
theorem heardWrite (destroy : ℕ → ω → ω) :
    WriteRule (appHooks destroy) fun m m' => Heard m.app m'.app :=
  (heardRule destroy).write

end Heard

/-! ### Steps of the thread -/

namespace IoApp

/-- What a step does: it makes messages from frames of open connections, and
writes no other; and no connection gets into `MSG_STATE`. -/
structure Moves (t t' : IoApp) : Prop where
  frames : ∀ e ∈ t'.processed, ∃ o, t.Live o ∧ FrameOf (t.objs o).2 e.2
  msgs : ∀ a, (a ∉ t'.processed.map Prod.fst ∧ t'.heap.msg a = t.heap.msg a) ∨
    (a, t'.heap.msg a) ∈ t'.processed
  states : ∀ o, (t'.objs o).2.state = MSG_STATE →
    (t.objs o).2.state = MSG_STATE ∧ (t'.objs o).2.id = (t.objs o).2.id

variable {t t' : IoApp} {o : Obj} {stream : List UInt8} {alloc : Bool}
  {m : Ctx Addr (AppWorld IoAppOwner)}

/-- Nothing was created. -/
theorem Moves.quiet (hprocessed : t'.processed = []) (hmsg : t'.heap.msg = t.heap.msg)
    (hstates : ∀ o, (t'.objs o).2.state = MSG_STATE →
      (t.objs o).2.state = MSG_STATE ∧ (t'.objs o).2.id = (t.objs o).2.id) : Moves t t' := by
  refine ⟨?_, ?_, hstates⟩
  · rw [hprocessed]
    exact fun _ he => nomatch he
  · intro a
    rw [hprocessed, hmsg]
    exact Or.inl ⟨List.not_mem_nil, rfl⟩

/-- A handler of the object `o` keeps the id and the state of every
object. -/
theorem after_states (h : Heard (t.ctx o stream alloc).app m.app) (o' : Obj) :
    ((t.after o m).objs o').2.state = (t.objs o').2.state ∧
      ((t.after o m).objs o').2.id = (t.objs o').2.id := by
  rcases eq_or_ne o' o with rfl | hne
  · rw [after_objs_self]
    exact ⟨h.state, h.id⟩
  · rw [after_objs_of_ne t hne]
    exact ⟨rfl, rfl⟩

/-- **A handler** of an object that is open, or that does nothing. -/
theorem Moves.handled (hnone : t.processed = []) (ho : o < t.brk)
    (h : Heard (t.ctx o stream alloc).app m.app)
    (hnoop : (t.objs o).1.destroy = true → m = t.ctx o stream alloc) : Moves t (t.after o m) := by
  have hstates : ∀ o', ((t.after o m).objs o').2.state = MSG_STATE →
      (t.objs o').2.state = MSG_STATE ∧ ((t.after o m).objs o').2.id = (t.objs o').2.id :=
    fun o' hs => ⟨(after_states h o').1.symm.trans hs, (after_states h o').2⟩
  rcases hd : (t.objs o).1.destroy with - | -
  · obtain ⟨new, hnew, hframes, hmsgs⟩ := h.msgs
    have hprocessed : (t.after o m).processed = new := by
      rw [show (t.ctx o stream alloc).app.processed = [] from hnone] at hnew
      exact hnew
    refine ⟨?_, ?_, hstates⟩
    · rw [hprocessed]
      exact fun e he => ⟨o, ⟨ho, hd⟩, hframes e he⟩
    · rw [hprocessed]
      exact hmsgs
  · obtain rfl := hnoop hd
    exact Moves.quiet hnone rfl hstates

/-- Opening a connection writes no message, and resets the state of the
object it takes. -/
structure Reset (t t' : IoApp) : Prop where
  processed : t'.processed = t.processed
  heap : t'.heap = t.heap
  states : ∀ o, (t'.objs o).2.state = MSG_STATE → t'.objs o = t.objs o

theorem openConnection_reset (t : IoApp) (sock : ℤ × ℕ) : Reset t (t.openConnection sock) := by
  rcases t.owner.cache.get_cases with ⟨o, K, hget, -⟩ | hget
  · refine ⟨by simp only [openConnection, hget], by simp only [openConnection, hget], ?_⟩
    intro o' hs
    simp only [openConnection, hget, Option.getD_some] at hs ⊢
    rcases eq_or_ne o' o with rfl | hne
    · rw [Function.update_self] at hs
      cases hs
    · rw [Function.update_of_ne hne]
  · refine ⟨by simp only [openConnection, hget], by simp only [openConnection, hget], ?_⟩
    intro o' hs
    simp only [openConnection, hget, Option.getD_none] at hs ⊢
    rcases eq_or_ne o' t.brk with rfl | hne
    · rw [Function.update_self] at hs
      cases hs
    · rw [Function.update_of_ne hne, Function.update_of_ne hne]

theorem foldl_openConnection_reset (q : List (ℤ × ℕ)) (t : IoApp) :
    Reset t (q.foldl openConnection t) := by
  induction q generalizing t with
  | nil => exact ⟨rfl, rfl, fun _ _ => rfl⟩
  | cons sock q ih =>
    have hone := openConnection_reset t sock
    have hrest := ih (t.openConnection sock)
    refine ⟨hrest.processed.trans hone.processed, hrest.heap.trans hone.heap, ?_⟩
    intro o hs
    have hsame := hrest.states o hs
    exact hsame.trans (hone.states o (hsame ▸ hs))

theorem newConnection_moves (hnone : t.processed = []) : Moves t t.newConnection := by
  have hfold := foldl_openConnection_reset t.sockQueue { t with sockQueue := [] }
  refine Moves.quiet (hfold.processed.trans hnone) (congrArg Heap.msg hfold.heap) ?_
  intro o hs
  have hsame : t.newConnection.objs o = t.objs o := hfold.states o hs
  rw [hsame] at hs ⊢
  exact ⟨hs, rfl⟩

/-- **What a step does**, unless it pushes a message or stands for the rest
of the program. -/
theorem step_moves {e : Event} (hnone : t.processed = []) (hpush : ∀ v, e ≠ .push v)
    (houtside : ∀ H Q, e ≠ .outside H Q) (hstep : t.step e = some t') : Moves t t' := by
  obtain ⟨-, hhappens⟩ := step_happens hstep
  cases hhappens with
  | accept fd | acceptElsewhere => exact Moves.quiet hnone rfl fun _ hs => ⟨hs, rfl⟩
  | newConnection => exact newConnection_moves hnone
  | read ho fuel stream alloc script =>
    exact Moves.handled hnone ho ((heardRead _).readHandler fuel script _)
      (fun hd => readHandler_destroyed fuel hd)
  | write ho connected sends =>
    exact Moves.handled hnone ho ((heardWrite _).writeHandler connected sends _)
      (fun hd => writeHandler_destroyed hd)
  | timeout ho =>
    exact Moves.handled hnone ho ((heardWrite _).timeoutHandler _)
      (fun hd => timeoutHandler_destroyed hd)
  | push v => exact absurd rfl (hpush v)
  | outside H Q => exact absurd rfl (houtside H Q)

/-- **What a push does**: messages are not written, and if a connection gets
into `MSG_STATE` then the message asked for it, and was for this
connection. -/
theorem pushMessage_moves (h : Books t.sockQueue t) (v : Addr) :
    (t.pushMessage v).processed = t.processed ∧ (t.pushMessage v).heap.msg = t.heap.msg ∧
      ∀ o, ((t.pushMessage v).objs o).2.state = MSG_STATE →
        ((t.objs o).2.state = MSG_STATE ∧ ((t.pushMessage v).objs o).2.id = (t.objs o).2.id) ∨
          ((t.heap.msg v).switchState = true ∧
            ((t.pushMessage v).objs o).2.id = (t.heap.msg v).conn) := by
  unfold IoApp.pushMessage
  dsimp only
  split
  · -- the register leads to the object whose connection the message names
    rename_i o hget
    obtain ⟨hlive, hid⟩ := (h.entry _ o).mp (h.keyed.get.mp hget)
    refine ⟨rfl, rfl, ?_⟩
    intro o' hs
    rcases eq_or_ne o' o with rfl | hne
    · rw [after_objs_self] at hs ⊢
      rcases hswitch : (t.heap.msg v).switchState with - | -
      · refine Or.inl ⟨?_, rfl⟩
        rw [hswitch] at hs
        exact hs
      · exact Or.inr ⟨rfl, (h.appId o' hlive.1).trans hid⟩
    · rw [after_objs_of_ne t hne] at hs ⊢
      exact Or.inl ⟨hs, rfl⟩
  · split
    · exact ⟨rfl, rfl, fun _ hs => Or.inl ⟨hs, rfl⟩⟩
    · exact ⟨rfl, rfl, fun _ hs => Or.inl ⟨hs, rfl⟩⟩

end IoApp

end Xkim
