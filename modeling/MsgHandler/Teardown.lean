/-
MsgHandler/Teardown.lean

How often one event tears a connection down.

`closeSocket` and `resetSocket` do not look at `_destroy`, so everything
depends on the handlers returning after they call them.  All branches of
`readSocket` and `writeSocket` do, except one: after a hard error of the
`recv` in state `SOCKET_RECV_FRAMING` the code goes on with the bytes it
has.  If these hold a length word the connection is torn down a second
time, because the frame is too large or because the next `recv` fails on the
closed socket.

`Did n m m'` says that the handler went from `m` to `m'` with exactly `n`
teardowns, and what follows for the owner.  The main results are
`readHandler_once`, `readHandler_twice` and `writeHandler_once`.
-/
import MsgHandler.Reassembly

namespace Xkim

variable {P σ ω : Type}

/-- The teardowns in a trace. -/
def teardowns : List Act → ℕ
  | [] => 0
  | .teardown _ :: as => teardowns as + 1
  | _ :: as => teardowns as

@[simp] theorem teardowns_append (as bs : List Act) :
    teardowns (as ++ bs) = teardowns as + teardowns bs := by
  induction as with
  | nil => simp [teardowns]
  | cons a as ih => cases a <;> simp [teardowns, ih, Nat.add_right_comm]

@[simp] theorem teardowns_replicate_recv (k len : ℕ) (c : IoConnection P) :
    teardowns (List.replicate k (recvAct len c)) = 0 := by
  induction k with
  | zero => rfl
  | succ k ih => simpa [List.replicate_succ, recvAct, teardowns] using ih

/-- The part `own` of the state behind the hooks belongs to the owner of the
connection: only the destroy callback touches it, as `d`. -/
structure OwnedBy (h : IoHooks P σ) (own : σ → ω) (d : ω → ω) : Prop where
  whenReceivedFrame : ∀ {mem b size s r s'},
    h.whenReceivedFrame mem b size s = some (r, s') → own s' = own s
  pendingPushData : ∀ p s, own (h.pendingPushData p s) = own s
  whenClosed : ∀ s, own (h.whenClosed s) = own s
  whenDestroy : ∀ s, own (h.whenDestroy s) = d (own s)
  getPushData : ∀ s, own (h.getPushData s).2 = own s
  destroyMsgData : ∀ p s, own (h.destroyMsgData p s) = own s
  setWpos : ∀ p n s, own (h.setWpos p n s) = own s

/-- From `m` to `m'` with exactly `n` teardowns. -/
structure Did (own : σ → ω) (d : ω → ω) (n : ℕ) (m m' : Ctx P σ) : Prop where
  tears : teardowns m'.trace = teardowns m.trace + n
  owner : own m'.app = d^[n] (own m.app)
  destroy : m'.conn.destroy = (m.conn.destroy || decide (0 < n))
  closed : 0 < n → m'.conn.socket = none
  socket : n = 0 → m'.conn.socket = m.conn.socket
  id : m'.conn.id = m.conn.id

variable {h : IoHooks P σ} {own : σ → ω} {d : ω → ω} {m m' m'' : Ctx P σ}

theorem Did.refl (m : Ctx P σ) : Did own d 0 m m :=
  ⟨rfl, rfl, by simp, fun hn => absurd hn (lt_irrefl 0), fun _ => rfl, rfl⟩

/-- Something after no teardown. -/
theorem Did.before {n : ℕ} (h₁ : Did own d 0 m m') (h₂ : Did own d n m' m'') :
    Did own d n m m'' := by
  refine ⟨?_, ?_, ?_, h₂.closed, fun hn => (h₂.socket hn).trans (h₁.socket rfl),
    h₂.id.trans h₁.id⟩
  · rw [h₂.tears, h₁.tears, Nat.add_zero]
  · rw [h₂.owner, h₁.owner]
    rfl
  · rw [h₂.destroy, h₁.destroy]
    simp

/-- A second teardown. -/
theorem Did.twice (h₁ : Did own d 1 m m') (h₂ : Did own d 1 m' m'') : Did own d 2 m m'' := by
  refine ⟨?_, ?_, ?_, fun _ => h₂.closed Nat.one_pos, (fun hn => nomatch hn),
    h₂.id.trans h₁.id⟩
  · rw [h₂.tears, h₁.tears]
  · rw [h₂.owner, h₁.owner]
    rfl
  · rw [h₂.destroy, h₁.destroy]
    simp

/-- Steps that only touch what a teardown leaves alone. -/
theorem Did.of_eq {as : List Act} (ht : m'.trace = m.trace ++ as) (ha : teardowns as = 0)
    (ho : own m'.app = own m.app) (hd : m'.conn.destroy = m.conn.destroy)
    (hs : m'.conn.socket = m.conn.socket) (hi : m'.conn.id = m.conn.id) : Did own d 0 m m' :=
  ⟨by rw [ht, teardowns_append, ha], ho, by rw [hd]; simp,
    fun hn => absurd hn (lt_irrefl 0), fun _ => hs, hi⟩

/-! ### The parts of the handlers -/

section Parts

variable (hown : OwnedBy h own d)

include hown in
theorem teardown_did (reset : Bool) (m : Ctx P σ) : Did own d 1 m (teardown h reset m) := by
  refine ⟨?_, ?_, ?_, fun _ => rfl, (fun hn => nomatch hn), rfl⟩
  · show teardowns (m.trace ++ [.teardown reset]) = _
    rw [teardowns_append]
    rfl
  · show own (h.whenDestroy (h.whenClosed _)) = d (own m.app)
    rw [hown.whenDestroy, hown.whenClosed]
    rcases m.conn.currentPush with - | p
    · rfl
    · rw [hown.pendingPushData]
  · show true = _
    simp

theorem recv_did {len : ℕ} {cs : List RecvChoice} {r : RecvResult}
    (hpost : RecvPost len cs m r m') : Did own d 0 m m' := by
  obtain ⟨k, hk⟩ := hpost.trace
  refine Did.of_eq hk (teardowns_replicate_recv _ _ _) (by rw [hpost.app]) ?_ ?_ ?_ <;>
    rw [hpost.conn]

include hown in
theorem callFrame_did (b size : ℤ) (m : Ctx P σ) :
    Did own d 0 m (callFrame h b size m).2 ∧ (callFrame h b size m).2.conn = m.conn := by
  unfold callFrame
  rcases e : h.whenReceivedFrame m.conn.rbuf b size m.app with - | ⟨r, s⟩
  · simp only [Ctx.log, e]
    exact ⟨Did.of_eq rfl rfl rfl rfl rfl rfl, rfl⟩
  · simp only [Ctx.log, e]
    exact ⟨Did.of_eq rfl rfl (hown.whenReceivedFrame e) rfl rfl rfl, trivial⟩

theorem keepRest_did (b len : ℤ) (m : Ctx P σ) : Did own d 0 m (keepRest b len m) := by
  unfold keepRest
  split <;> exact Did.of_eq (List.append_nil _).symm rfl rfl rfl rfl rfl

/-- At most one teardown. -/
def Once (own : σ → ω) (d : ω → ω) (m m' : Ctx P σ) : Prop :=
  Did own d 0 m m' ∨ Did own d 1 m m'

theorem Once.before (h₁ : Did own d 0 m m') (h₂ : Once own d m' m'') : Once own d m m'' := by
  rcases h₂ with h₂ | h₂
  · exact Or.inl (h₁.before h₂)
  · exact Or.inr (h₁.before h₂)

include hown in
/-- The pipelined loop returns as soon as a frame is refused. -/
theorem pipelined_once (fuel : ℕ) (b len size : ℤ) (m : Ctx P σ) :
    Once own d m (pipelined h fuel b len size m) := by
  induction fuel generalizing b len size m with
  | zero => exact Or.inl (Did.of_eq (List.append_nil _).symm rfl rfl rfl rfl rfl)
  | succ fuel ih =>
    have hcall := (callFrame_did hown b size m).1
    refine pipelined_round (Q := Once own d m) ?_ ?_ ?_ ?_ ?_ ?_
    · exact fun _ => Or.inl (keepRest_did _ _ _)
    · exact fun _ _ => Or.inl hcall
    · exact fun _ _ => Or.inr (hcall.before (teardown_did hown true _))
    · intro _ _
      exact Or.inl (hcall.before (Did.of_eq (List.append_nil _).symm rfl rfl rfl rfl rfl))
    · exact fun _ _ _ _ _ _ _ => Once.before hcall (ih _ _ _ _)
    · exact fun _ _ _ _ _ => Or.inl (hcall.before (keepRest_did _ _ _))

include hown in
theorem deliver_once (fuel : ℕ) (m : Ctx P σ) : Once own d m (deliver h fuel m) := by
  have hcall := (callFrame_did hown 0 (toInt32 m.conn.frameSize) m).1
  refine deliver_cases (Q := Once own d m) ?_ ?_ ?_ ?_ ?_
  · exact fun _ _ => Or.inl hcall
  · exact fun _ _ => Or.inr (hcall.before (teardown_did hown true _))
  · intro ret m₁ _ hm₁ _
    rw [hm₁] at hcall
    exact Or.inl (hcall.before (Did.of_eq (List.append_nil _).symm rfl rfl rfl rfl rfl))
  · exact fun _ => pipelined_once hown fuel _ _ _ m
  · exact fun _ => Or.inl (Did.refl m)

theorem store_did (bytes : List UInt8) (m : Ctx P σ) : Did own d 0 m (store bytes m) :=
  Did.of_eq (List.append_nil _).symm rfl rfl rfl rfl rfl

include hown in
theorem dataRecv_once (fuel : ℕ) (m : Ctx P σ) : Once own d m (dataRecv h fuel m) := by
  unfold dataRecv
  simp only
  split
  · rcases hrec : recv (toInt32 ((m.conn.frameSize : ℤ) - m.conn.rpos)).toNat m.script m
      with ⟨res, m₁⟩
    have hdid : Did own d 0 m m₁ := recv_did (recv_post_of_eq hrec)
    cases res with
    | got bytes =>
      exact Once.before (hdid.before (store_did bytes m₁)) (deliver_once hown fuel _)
    | eof => exact Or.inr (hdid.before (teardown_did hown false m₁))
    | error => exact Or.inr (hdid.before (teardown_did hown true m₁))
    | eagain => exact Or.inl hdid
  · exact deliver_once hown fuel m

include hown in
theorem frameHeader_once (fuel : ℕ) (m : Ctx P σ) : Once own d m (frameHeader h fuel m) := by
  unfold frameHeader
  split
  · exact Or.inl (Did.refl m)
  · simp only
    have hset : ∀ c : IoConnection P, c.destroy = m.conn.destroy →
        c.socket = m.conn.socket → c.id = m.conn.id → Did own d 0 m { m with conn := c } :=
      fun c hd hs hi => Did.of_eq (List.append_nil _).symm rfl rfl hd hs hi
    split
    · refine Once.before ?_ (Or.inr (teardown_did hown true _))
      exact hset _ rfl rfl rfl
    · split
      · split
        · refine Once.before ?_ (dataRecv_once hown fuel _)
          exact hset _ rfl rfl rfl
        · refine Once.before ?_ (Or.inr (teardown_did hown true _))
          exact hset _ rfl rfl rfl
      · refine Once.before ?_ (dataRecv_once hown fuel _)
        exact hset _ rfl rfl rfl

/-! ### Read events -/

/-- An error strikes a connection that waits for a frame whose length word
it already has. -/
def Hazard (c : IoConnection P) (script : List RecvChoice) : Prop :=
  c.rsockState = .recvFraming ∧ 4 ≤ c.rpos ∧ firstAnswer script = some .error

instance (c : IoConnection P) (script : List RecvChoice) : Decidable (Hazard c script) := by
  unfold Hazard
  infer_instance

/-- The read buffer has its size, and a frame that is waited for in state
`SOCKET_DATA_RECV` fits into it. -/
structure Sound (c : IoConnection P) : Prop where
  rbuf : c.rbuf.length = FRAME_MAX_SIZE
  rsize : c.rsize = FRAME_MAX_SIZE
  rpos : c.rpos ≤ FRAME_MAX_SIZE
  state : c.rsockState = .recvFraming ∨ c.rsockState = .dataRecv
  framed : c.rsockState = .dataRecv → c.frameSize ≤ FRAME_MAX_SIZE

/-- What holds of a connection between two events: in addition, an open
connection in state `SOCKET_RECV_FRAMING` holds no complete frame. -/
structure Intact (c : IoConnection P) : Prop extends Sound c where
  waiting : c.destroy = false → c.rsockState = .recvFraming →
    c.rpos < 4 ∨ (c.rpos : ℤ) < toInt32 (ntohl c.rbuf + 4)

include hown in
/-- **A read event tears an open connection down at most once**, outside the
hazard. -/
theorem readHandler_once (fuel : ℕ) {script : List RecvChoice}
    (hsock : m.conn.destroy = false → m.conn.socket ≠ none)
    (hsafe : m.conn.destroy = false → ¬ Hazard m.conn script) :
    Once own d m (readHandler h fuel script m) := by
  unfold readHandler
  split
  · exact Or.inl (Did.refl m)
  · rename_i hstop
    have halive : m.conn.destroy = false := by
      simp only [Bool.or_eq_true, not_or, Bool.not_eq_true] at hstop
      exact hstop.2
    have hscript : Did own d 0 m { m with script := script } :=
      Did.of_eq (List.append_nil _).symm rfl rfl rfl rfl rfl
    refine Once.before hscript ?_
    unfold readSocket
    split
    · rename_i hst
      unfold recvFraming
      simp only
      rcases hrec : recv (m.conn.rsize - m.conn.rpos) script { m with script := script }
        with ⟨res, m₁⟩
      have hpost := recv_post_of_eq hrec
      have hdid : Did own d 0 { m with script := script } m₁ := recv_did hpost
      cases res with
      | got bytes =>
        exact Once.before (hdid.before (store_did bytes m₁)) (frameHeader_once hown fuel _)
      | eof => exact Or.inr (hdid.before (teardown_did hown false m₁))
      | eagain => exact Once.before hdid (frameHeader_once hown fuel m₁)
      | error =>
        -- outside the hazard there is no length word to go on with
        have hfirst : firstAnswer script = some .error :=
          (hpost.error.mp rfl).resolve_left (hsock halive)
        have hshort : m₁.conn.rpos < 4 := by
          rw [hpost.conn]
          by_contra hlong
          exact hsafe halive ⟨hst, not_lt.mp hlong, hfirst⟩
        have hstop : frameHeader h fuel (resetSocket h m₁) = resetSocket h m₁ := if_pos hshort
        simp only [hstop]
        exact Or.inr (hdid.before (teardown_did hown true m₁))
    · exact dataRecv_once hown fuel _
    · exact Or.inl (Did.of_eq (List.append_nil _).symm rfl rfl rfl rfl rfl)

include hown in
/-- A length word at hand on a closed socket leads to a teardown. -/
theorem frameHeader_closed (fuel : ℕ) (hsock : m.conn.socket = none) (h4 : 4 ≤ m.conn.rpos)
    (hwait : (m.conn.rpos : ℤ) < toInt32 (ntohl m.conn.rbuf + 4)) :
    Did own d 1 m (frameHeader h fuel m) := by
  have hset : ∀ c : IoConnection P, c.destroy = m.conn.destroy →
      c.socket = m.conn.socket → c.id = m.conn.id → Did own d 0 m { m with conn := c } :=
    fun c hd hs hi => Did.of_eq (List.append_nil _).symm rfl rfl hd hs hi
  have hlt := ntohl_lt m.conn.rbuf
  -- the next `recv` fails, as the socket is closed
  have hdata : ∀ m₁ : Ctx P σ, m₁.conn.socket = none → m₁.conn.rpos = m.conn.rpos →
      m₁.conn.frameSize = (ntohl m.conn.rbuf + 4) % 2 ^ 32 →
      m₁.conn.frameSize ≤ FRAME_MAX_SIZE → Did own d 1 m₁ (dataRecv h fuel m₁) := by
    intro m₁ hs hr hf hmax
    have hpos : toInt32 ((m₁.conn.frameSize : ℤ) - m₁.conn.rpos) > 0 := by
      rw [FRAME_MAX_SIZE] at hmax
      unfold toInt32 at *
      rw [Int.bmod_eq_emod] at *
      split at hwait <;> split <;> omega
    unfold dataRecv
    simp only [hpos, if_true]
    rcases hrec : recv (toInt32 ((m₁.conn.frameSize : ℤ) - m₁.conn.rpos)).toNat m₁.script m₁
      with ⟨res, m₂⟩
    have hpost := recv_post_of_eq hrec
    have herr : res = .error := hpost.error.mpr (Or.inl hs)
    rw [herr]
    exact (recv_did hpost).before (teardown_did hown true m₂)
  unfold frameHeader
  rw [if_neg (not_lt.mpr h4)]
  simp only
  split
  · refine Did.before ?_ (teardown_did hown true _)
    exact hset _ rfl rfl rfl
  · rename_i hmax
    split
    · split
      · refine Did.before ?_ (hdata _ hsock rfl rfl (not_lt.mp hmax))
        exact hset _ rfl rfl rfl
      · refine Did.before ?_ (teardown_did hown true _)
        exact hset _ rfl rfl rfl
    · refine Did.before ?_ (hdata _ hsock rfl rfl (not_lt.mp hmax))
      exact hset _ rfl rfl rfl

include hown in
/-- **In the hazard a read event tears the connection down twice.** -/
theorem readHandler_twice (fuel : ℕ) {script : List RecvChoice} (hi : Intact m.conn)
    (hrun : m.halted = false) (halive : m.conn.destroy = false)
    (hz : Hazard m.conn script) : Did own d 2 m (readHandler h fuel script m) := by
  obtain ⟨hst, h4, hfirst⟩ := hz
  have hwait := (hi.waiting halive hst).resolve_left (not_lt.mpr h4)
  unfold readHandler
  rw [if_neg (by simp [hrun, halive])]
  have hscript : Did own d 0 m { m with script := script } :=
    Did.of_eq (List.append_nil _).symm rfl rfl rfl rfl rfl
  refine hscript.before ?_
  simp only [readSocket, hst, recvFraming]
  rcases hrec : recv (m.conn.rsize - m.conn.rpos) script { m with script := script }
    with ⟨res, m₁⟩
  have hpost := recv_post_of_eq hrec
  have herr : res = .error := hpost.error.mpr (Or.inr hfirst)
  have hdid : Did own d 0 { m with script := script } m₁ := recv_did hpost
  have hc : m₁.conn = m.conn := hpost.conn
  rw [herr]
  refine (hdid.before (teardown_did hown true m₁)).twice (frameHeader_closed hown fuel rfl ?_ ?_)
  · show 4 ≤ m₁.conn.rpos
    rw [hc]
    exact h4
  · show (m₁.conn.rpos : ℤ) < toInt32 (ntohl m₁.conn.rbuf + 4)
    rw [hc]
    exact hwait

/-! ### Write events and timeouts -/

include hown in
theorem nextPush_did (m : Ctx P σ) : Did own d 0 m (nextPush h m) := by
  have hget := hown.getPushData m.app
  unfold nextPush
  rcases e : h.getPushData m.app with ⟨- | p, s⟩
  · rw [e] at hget
    exact Did.of_eq (List.append_nil _).symm rfl hget rfl rfl rfl
  · rw [e] at hget
    exact Did.of_eq (List.append_nil _).symm rfl hget rfl rfl rfl

include hown in
theorem sendLoop_once (p : P) (cs : List SendChoice) (m : Ctx P σ) :
    Once own d m (sendLoop h p cs m) := by
  have hfinish : ∀ m : Ctx P σ,
      Did own d 0 m (nextPush h { m with app := h.destroyMsgData p m.app }) := by
    intro m
    have hfree : Did own d 0 m { m with app := h.destroyMsgData p m.app } :=
      Did.of_eq (List.append_nil _).symm rfl (hown.destroyMsgData p m.app) rfl rfl rfl
    exact hfree.before (nextPush_did hown _)
  induction cs generalizing m with
  | nil =>
    unfold sendLoop
    simp only
    split
    · exact Or.inl (Did.refl m)
    · split
      · exact Or.inl (hfinish m)
      · exact Or.inl (Did.refl m)
  | cons c cs ih =>
    unfold sendLoop
    simp only
    split
    · cases c with
      | eintr => exact ih m
      | eagain | zero => exact Or.inl (Did.refl m)
      | error => exact Or.inr (teardown_did hown true m)
      | put n =>
        -- the bytes sent are recorded, then `_wpos` moves on
        have hsent : ∀ (bytes : List UInt8) (k : ℤ), Did own d 0 m
            { m.log (.send bytes) with app := h.setWpos p k m.app } :=
          fun bytes k => Did.of_eq rfl rfl (hown.setWpos p k m.app) rfl rfl rfl
        dsimp only
        split
        · exact Or.inl ((hsent _ _).before (hfinish _))
        · exact Or.inl (hsent _ _)
    · split
      · exact Or.inl (hfinish m)
      · exact Or.inl (Did.refl m)

include hown in
theorem writeCurrent_once (sends : List SendChoice) (m : Ctx P σ) :
    Once own d m (writeCurrent h sends m) := by
  unfold writeCurrent
  split
  · exact Or.inl (Did.refl m)
  · split
    · exact Or.inr (teardown_did hown true m)
    · exact sendLoop_once hown _ sends m

include hown in
theorem dataWrite_once (sends : List SendChoice) (m : Ctx P σ) :
    Once own d m (dataWrite h sends m) := by
  unfold dataWrite
  split
  · exact writeCurrent_once hown sends m
  · exact Once.before (nextPush_did hown m) (writeCurrent_once hown sends _)

include hown in
/-- **A write event tears a connection down at most once.** -/
theorem writeHandler_once (connected : Bool) (sends : List SendChoice) (m : Ctx P σ) :
    Once own d m (writeHandler h connected sends m) := by
  unfold writeHandler
  split
  · exact Or.inl (Did.refl m)
  · unfold writeSocket
    split
    · split
      · refine Once.before ?_ (dataWrite_once hown sends _)
        exact Did.of_eq (List.append_nil _).symm rfl rfl rfl rfl rfl
      · exact Or.inr (teardown_did hown true m)
    · exact dataWrite_once hown sends m
    · exact Or.inr (teardown_did hown true m)

include hown in
/-- **So does a timeout.** -/
theorem timeoutHandler_once (m : Ctx P σ) : Once own d m (timeoutHandler h m) := by
  unfold timeoutHandler
  split
  · exact Or.inl (Did.refl m)
  · exact Or.inr (teardown_did hown true m)

end Parts

/-! ### Connections between events -/

/-- A handler does nothing on a connection that has been torn down. -/
theorem readHandler_destroyed (fuel : ℕ) {script : List RecvChoice}
    (hd : m.conn.destroy = true) : readHandler h fuel script m = m := by
  rw [readHandler, if_pos (by simp [hd])]

theorem writeHandler_destroyed {connected : Bool} {sends : List SendChoice}
    (hd : m.conn.destroy = true) : writeHandler h connected sends m = m := by
  rw [writeHandler, if_pos (by simp [hd])]

theorem timeoutHandler_destroyed (hd : m.conn.destroy = true) : timeoutHandler h m = m := by
  rw [timeoutHandler, if_pos (by simp [hd])]

/-- The connection is as it should be between two events, unless the program
has left its defined behaviour. -/
def Kept (m : Ctx P σ) : Prop := m.halted = true ∨ Intact m.conn

theorem teardown_kept (hs : Sound m.conn) (reset : Bool) : Kept (teardown h reset m) :=
  Or.inr ⟨⟨hs.rbuf, hs.rsize, hs.rpos, hs.state, hs.framed⟩, fun hd => nomatch hd⟩

/-- What is moved to the front of the buffer is no complete frame. -/
theorem keepRest_kept {b len : ℤ} (hs : Sound m.conn)
    (hwait : len < 4 ∨ len < toInt32 (ntohl (m.conn.rbuf.drop b.toNat) + 4)) :
    Kept (keepRest b len m) := by
  have hrbuf := hs.rbuf
  unfold keepRest
  split
  · rename_i hin
    have hlen : (slice m.conn.rbuf b len).length = len.toNat := by
      rw [slice, List.length_take, List.length_drop]
      omega
    refine Or.inr ⟨⟨?_, hs.rsize, ?_, Or.inl rfl, by rintro ⟨⟩⟩, ?_⟩
    · show (slice m.conn.rbuf b len ++ m.conn.rbuf.drop len.toNat).length = _
      rw [List.length_append, List.length_drop, hlen]
      omega
    · show len.toNat ≤ _
      omega
    · intro _ _
      show len.toNat < 4 ∨ (len.toNat : ℤ) <
        toInt32 (ntohl (slice m.conn.rbuf b len ++ m.conn.rbuf.drop len.toNat) + 4)
      by_cases h4 : len < 4
      · exact Or.inl (by omega)
      · right
        rw [ntohl_append _ _ (by omega), slice,
          ntohl_take (by omega) (by rw [List.length_drop]; omega)]
        have := hwait.resolve_left h4
        omega
  · exact Or.inl rfl

/-- The pipelined loop leaves its loop at a frame that is not complete. -/
theorem pipelined_kept (fuel : ℕ) :
    ∀ {b len size : ℤ} {m : Ctx P σ}, Sound m.conn →
      (len < size → size = toInt32 (ntohl (m.conn.rbuf.drop b.toNat) + 4)) →
      Kept (pipelined h fuel b len size m) := by
  induction fuel with
  | zero => exact fun _ _ => Or.inl rfl
  | succ fuel ih =>
    intro b len size m hs hexit
    obtain ⟨hc, hnone⟩ := callFrame_conn h b size m
    have hs₁ : Sound (callFrame h b size m).2.conn := hc ▸ hs
    refine pipelined_round ?_ ?_ ?_ ?_ ?_ ?_
    · intro hlt
      refine keepRest_kept hs (Or.inr ?_)
      rw [← hexit hlt]
      exact hlt
    · exact fun _ hn => Or.inl (hnone hn)
    · exact fun _ _ => teardown_kept hs₁ true
    · exact fun _ _ => Or.inl rfl
    · -- the next round starts with the size it has just read
      intro ret w _ _ _ _ hw
      exact ih hs₁ fun _ => by rw [(wordAt?_eq_some hw).2.2]
    · exact fun _ _ _ _ hless => keepRest_kept hs₁ (Or.inl hless)

theorem deliver_kept (fuel : ℕ) (hs : Sound m.conn) (hst : m.conn.rsockState = .dataRecv) :
    Kept (deliver h fuel m) := by
  obtain ⟨hc, hnone⟩ := callFrame_conn h 0 (toInt32 m.conn.frameSize) m
  have hs₁ : Sound (callFrame h 0 (toInt32 m.conn.frameSize) m).2.conn := by
    rw [hc]
    exact hs
  refine deliver_cases ?_ ?_ ?_ ?_ ?_
  · exact fun _ hn => Or.inl (hnone hn)
  · exact fun _ _ => teardown_kept hs₁ true
  · intro ret m₁ _ hm₁ _
    rw [hm₁] at hs₁
    exact Or.inr ⟨⟨hs₁.rbuf, hs₁.rsize, Nat.zero_le _, Or.inl rfl, fun he => nomatch he⟩,
      fun _ _ => Or.inl (Nat.zero_lt_succ 3)⟩
  · exact fun hmore => pipelined_kept fuel hs fun hlt => by omega
  · exact fun _ => Or.inr ⟨hs, fun _ he => by rw [hst] at he; cases he⟩

theorem store_sound {bytes : List UInt8} (hs : Sound m.conn)
    (hroom : m.conn.rpos + bytes.length ≤ FRAME_MAX_SIZE) : Sound (store bytes m).conn := by
  refine ⟨?_, hs.rsize, hroom, hs.state, hs.framed⟩
  rw [store_rbuf_length (hroom.trans_eq hs.rbuf.symm), hs.rbuf]

theorem dataRecv_kept (fuel : ℕ) (hs : Sound m.conn) (hst : m.conn.rsockState = .dataRecv) :
    Kept (dataRecv h fuel m) := by
  have hmax := hs.framed hst
  have hrpos := hs.rpos
  have hleft := toInt32_left hmax hrpos
  rw [dataRecv, hleft]
  split
  · rcases hrec : recv ((m.conn.frameSize : ℤ) - m.conn.rpos).toNat m.script m with ⟨res, m₁⟩
    have hpost := recv_post_of_eq hrec
    have hc := hpost.conn
    have hs₁ : Sound m₁.conn := hc ▸ hs
    cases res with
    | got bytes =>
      have hgot := (hpost.got bytes rfl).2.2
      refine deliver_kept fuel (store_sound hs₁ (by rw [hc]; omega)) ?_
      show m₁.conn.rsockState = _
      rw [hc, hst]
    | eof => exact teardown_kept hs₁ false
    | error => exact teardown_kept hs₁ true
    | eagain => exact Or.inr ⟨hs₁, fun _ he => by rw [hc, hst] at he; cases he⟩
  · exact deliver_kept fuel hs hst

theorem frameHeader_kept (fuel : ℕ) (hs : Sound m.conn)
    (hst : m.conn.rsockState = .recvFraming) : Kept (frameHeader h fuel m) := by
  unfold frameHeader
  split
  · rename_i hshort
    exact Or.inr ⟨hs, fun _ _ => Or.inl hshort⟩
  · simp only
    split
    · refine teardown_kept ?_ true
      exact ⟨hs.rbuf, hs.rsize, hs.rpos, hs.state, fun he => by
        rw [show m.conn.rsockState = _ from hst] at he; cases he⟩
    · rename_i hmax
      rw [if_neg (not_grow (not_lt.mp hmax) hs.rsize)]
      refine dataRecv_kept fuel ?_ rfl
      exact ⟨hs.rbuf, hs.rsize, hs.rpos, Or.inr rfl, fun _ => not_lt.mp hmax⟩

/-- **A read event leaves a connection intact.** -/
theorem readHandler_kept (fuel : ℕ) {script : List RecvChoice} (hi : Intact m.conn) :
    Kept (readHandler h fuel script m) := by
  unfold readHandler
  split
  · exact Or.inr hi
  · have hs : Sound m.conn := hi.toSound
    have hrpos := hs.rpos
    unfold readSocket
    split
    · rename_i hst
      unfold recvFraming
      simp only
      rcases hrec : recv (m.conn.rsize - m.conn.rpos) script { m with script := script }
        with ⟨res, m₁⟩
      have hpost := recv_post_of_eq hrec
      have hc : m₁.conn = m.conn := hpost.conn
      have hs₁ : Sound m₁.conn := hc ▸ hs
      have hst₁ : m₁.conn.rsockState = .recvFraming := by rw [hc]; exact hst
      cases res with
      | got bytes =>
        have hgot := (hpost.got bytes rfl).2.2
        rw [hs.rsize] at hgot
        exact frameHeader_kept fuel (store_sound hs₁ (by rw [hc]; omega)) hst₁
      | eof => exact teardown_kept hs₁ false
      | eagain => exact frameHeader_kept fuel hs₁ hst₁
      | error =>
        refine frameHeader_kept fuel ?_ hst₁
        exact ⟨hs₁.rbuf, hs₁.rsize, hs₁.rpos, hs₁.state, hs₁.framed⟩
    · rename_i hst
      exact dataRecv_kept fuel hs hst
    · exact Or.inl rfl

/-! ### The write half -/

theorem Intact.same {c c' : IoConnection P} (hi : Intact c) (hr : SameRead c c') : Intact c' := by
  refine ⟨⟨?_, ?_, ?_, ?_, ?_⟩, ?_⟩
  · rw [hr.rbuf, hi.rbuf]
  · rw [hr.rsize, hi.rsize]
  · rw [hr.rpos]
    exact hi.rpos
  · rw [hr.state]
    exact hi.state
  · rw [hr.state, hr.frameSize]
    exact hi.framed
  · intro hd hst
    rw [hr.rpos, hr.rbuf]
    exact hi.waiting (hr.alive hd) (hr.state ▸ hst)

/-- **Write events leave the read half alone.** -/
theorem writeSameRead (h : IoHooks P σ) :
    WriteRule h fun m m' => SameRead m.conn m'.conn where
  refl m := SameRead.refl m.conn
  trans := SameRead.trans
  conn _ _ hc := hc
  getPushData m := SameRead.refl m.conn
  destroyMsgData m _ := SameRead.refl m.conn
  send m _ _ _ := SameRead.refl m.conn
  teardown _ _ := ⟨rfl, rfl, rfl, rfl, rfl, by rintro ⟨⟩⟩

end Xkim
