/-
MsgHandler/Pilot/RoundRobin.lean

What `acquire_thrift_client()` finds (`thrift/pilot/pooled_client.inl`).

A call makes as many rounds as there are pools, and takes a value of the shared
counter for each.  When the values are consecutive, every pool is tried
(`exists_slot_eq`).  They are not when another call takes a value in between,
or when the counter passes from 2^31 - 1 to -2^31 or from -1 to 0, because the
`int32_t` is converted to `size_t` before the remainder is taken.  And a pool
that is tried hands out the client that has been idle longest, whether or not
another one could connect.

The values that a call has taken are followed from step to step (`OnTrack`), as
long as no other call takes one between its first and its last.  Then a call
during which some replica is ready throughout returns a client
(`acquire_finds_ready`).
-/
import MsgHandler.Pilot.Pools
import MsgHandler.Pilot.Service

namespace Xkim

namespace Pilot

open PooledClientImpl (slot)

/-! ### Consecutive values of the counter -/

/-- The `n` values from `b` on stand for `n` pools in order: `n` divides the
number of values, or the counter does not wrap and does not pass from -1 to 0
meanwhile. -/
def Unwrapped (b : BitVec 32) (n : ℕ) : Prop :=
  n ∣ 2 ^ 32 ∨ b.toInt + n ≤ 2 ^ 31 ∧ (b.toInt < 0 → b.toInt + n ≤ 0)

instance (b : BitVec 32) (n : ℕ) : Decidable (Unwrapped b n) :=
  inferInstanceAs (Decidable (_ ∨ _))

theorem toInt_add_ofNat (b : BitVec 32) (j : ℕ) :
    (b + BitVec.ofNat 32 j).toInt = (b.toInt + j).bmod (2 ^ 32) := by
  rw [BitVec.toInt_add, BitVec.toInt_ofNat', Int.add_bmod_bmod]

theorem slot_cast_of_dvd {n : ℕ} (hn : n ∣ 2 ^ 32) (b : BitVec 32) (j : ℕ) :
    ((slot n (b + BitVec.ofNat 32 j) : ℕ) : ℤ) = (b.toInt + j) % n := by
  have h32 : (n : ℤ) ∣ 2 ^ 32 := by exact_mod_cast hn
  have h64 : (n : ℤ) ∣ 2 ^ 64 := h32.trans (by norm_num)
  have hnonneg : 0 ≤ (b.toInt + j).bmod (2 ^ 32) % 2 ^ 64 := Int.emod_nonneg _ (by norm_num)
  rw [slot, toUInt64, toInt_add_ofNat, Int.natCast_mod, Int.toNat_of_nonneg hnonneg,
    Int.emod_emod_of_dvd _ h64, ← Int.emod_emod_of_dvd _ h32]
  have hbmod := Int.bmod_emod (x := b.toInt + j) (m := 2 ^ 32)
  norm_num at hbmod ⊢
  rw [hbmod, Int.emod_emod_of_dvd _ (by simpa using h32)]

/-- **Consecutive values stand for consecutive pools.** -/
theorem slot_add {b : BitVec 32} {n j : ℕ} (hb : Unwrapped b n) (hj : j < n) :
    slot n (b + BitVec.ofNat 32 j) = (slot n b + j) % n := by
  rcases hb with hn | ⟨hhigh, hlow⟩
  · have hadd := slot_cast_of_dvd hn b j
    have hzero := slot_cast_of_dvd hn b 0
    rw [show b + BitVec.ofNat 32 0 = b by simp, Nat.cast_zero, add_zero] at hzero
    have : ((slot n (b + BitVec.ofNat 32 j) : ℕ) : ℤ) = (((slot n b + j) % n : ℕ) : ℤ) := by
      rw [hadd, Int.natCast_mod, Nat.cast_add, hzero, Int.emod_add_emod]
    exact_mod_cast this
  · have hge : -2 ^ 31 ≤ b.toInt := by simpa using b.le_toInt
    have hint : (b + BitVec.ofNat 32 j).toInt = b.toInt + j := by
      rw [toInt_add_ofNat]
      exact toInt32_eq_self (by omega) (by omega)
    have hwide : toUInt64 (b.toInt + j) = toUInt64 b.toInt + j := by
      unfold toUInt64
      rcases lt_or_ge b.toInt 0 with hneg | hpos
      · have := hlow hneg
        omega
      · omega
    rw [slot, slot, hint, hwide, Nat.mod_add_mod]

/-- Among `n` consecutive values, one stands for the pool `g`. -/
theorem exists_slot_eq {b : BitVec 32} {n g : ℕ} (hb : Unwrapped b n) (hg : g < n) :
    ∃ j < n, slot n (b + BitVec.ofNat 32 j) = g := by
  have hlt : slot n b < n := Nat.mod_lt _ (Nat.zero_lt_of_lt hg)
  rcases le_or_gt (slot n b) g with hle | hgt
  · refine ⟨g - slot n b, by omega, ?_⟩
    rw [slot_add hb (by omega), Nat.add_sub_cancel' hle, Nat.mod_eq_of_lt hg]
  · refine ⟨g + n - slot n b, by omega, ?_⟩
    rw [slot_add hb (by omega), show slot n b + (g + n - slot n b) = g + n by omega,
      Nat.add_mod_right, Nat.mod_eq_of_lt hg]

/-! ### A call that follows the counter -/

namespace Acquire

/-- The values that the call has taken are `b`, `b + 1` and so on, the counter
stands at the next while the call has one to take, and none of the values of
its finished rounds stands for the pool `g`. -/
def OnTrack (g n : ℕ) (cur : BitVec 32) : Acquire → Prop
  | .next i => i = 0 ∨ ∃ b, Unwrapped b n ∧ (∀ j < i, slot n (b + BitVec.ofNat 32 j) ≠ g) ∧
      (i < n → cur = b + BitVec.ofNat 32 i)
  | .visit i hostIdx => i < n ∧ ∃ b, Unwrapped b n ∧
      (∀ j < i, slot n (b + BitVec.ofNat 32 j) ≠ g) ∧ hostIdx = b + BitVec.ofNat 32 i ∧
      (i + 1 < n → cur = b + BitVec.ofNat 32 (i + 1))
  | .returned result => result ≠ none

/-- The next step of the call takes a value. -/
def takes (n : ℕ) : Acquire → Bool
  | .next i => i < n
  | .visit .. | .returned _ => false

/-- The call has taken a value and has another to take. -/
def midway (n : ℕ) : Acquire → Bool
  | .next i => 0 < i ∧ i < n
  | .visit i _ => i + 1 < n
  | .returned _ => false

/-- The steps that the call has still to make. -/
def left (n : ℕ) : Acquire → ℕ
  | .next i => 2 * (n - i)
  | .visit i _ => 2 * (n - i) - 1
  | .returned _ => 0

variable {g n i m : ℕ} {cur hostIdx : BitVec 32} {a : Acquire}

theorem left_visit (h : left n (.next i) ≤ m) : left n (.visit i hostIdx) ≤ m - 1 := by
  simp only [left] at h ⊢
  omega

theorem left_next (h : left n (.visit i hostIdx) ≤ m) : left n (.next (i + 1)) ≤ m - 1 := by
  simp only [left] at h ⊢
  omega

theorem ofNat_succ (b : BitVec 32) (i : ℕ) :
    b + BitVec.ofNat 32 i + 1 = b + BitVec.ofNat 32 (i + 1) := by
  rw [BitVec.add_assoc, BitVec.ofNat_add]
  rfl

/-- The call takes the value of the counter. -/
theorem OnTrack.take (h : OnTrack g n cur (.next i)) (hi : i < n)
    (hfirst : i = 0 → Unwrapped cur n) : OnTrack g n (cur + 1) (.visit i cur) := by
  refine ⟨hi, ?_⟩
  rcases h with rfl | ⟨b, hb, hmiss, hcur⟩
  · exact ⟨cur, hfirst rfl, by simp, by simp, fun _ => by simp⟩
  · obtain rfl := hcur hi
    exact ⟨b, hb, hmiss, rfl, fun _ => ofNat_succ b i⟩

/-- A round that did not try the pool `g` is over. -/
theorem OnTrack.miss (h : OnTrack g n cur (.visit i hostIdx)) (hne : slot n hostIdx ≠ g) :
    OnTrack g n cur (.next (i + 1)) := by
  obtain ⟨-, b, hb, hmiss, rfl, hcur⟩ := h
  refine Or.inr ⟨b, hb, ?_, hcur⟩
  intro j hj
  rcases Nat.lt_succ_iff_lt_or_eq.mp hj with hj | rfl
  · exact hmiss j hj
  · exact hne

/-- Another call takes a value. -/
theorem OnTrack.other (h : OnTrack g n cur a) (ha : a.midway n = false) :
    OnTrack g n (cur + 1) a := by
  cases a with
  | next i =>
    rcases h with rfl | ⟨b, hb, hmiss, -⟩
    · exact Or.inl rfl
    · rcases Nat.eq_zero_or_pos i with rfl | hpos
      · exact Or.inl rfl
      · refine Or.inr ⟨b, hb, hmiss, fun hlt => ?_⟩
        exact absurd ⟨hpos, hlt⟩ (of_decide_eq_false ha)
  | visit i hostIdx =>
    obtain ⟨hi, b, hb, hmiss, hidx, -⟩ := h
    exact ⟨hi, b, hb, hmiss, hidx, fun hlt => absurd hlt (of_decide_eq_false ha)⟩
  | returned result => exact h

/-- A call that has not returned has a round left. -/
theorem OnTrack.lt (h : OnTrack g n cur (.next i)) (hg : g < n) : i < n := by
  rcases h with rfl | ⟨b, hb, hmiss, -⟩
  · exact Nat.zero_lt_of_lt hg
  · obtain ⟨j, hj, hslot⟩ := exists_slot_eq hb hg
    by_contra hge
    exact hmiss j (hj.trans_le (not_lt.mp hge)) hslot

end Acquire

/-! ### What the steps leave as it was -/

/-- Nothing but the contents of the pools has changed, and their lists of idle
clients are in order. -/
structure Steady (s s' : PooledClientImpl) : Prop where
  length : s'.connPoolVec.length = s.connPoolVec.length
  index : s'.curReplicaIndex = s.curReplicaIndex
  wf : (∀ rcp ∈ s.connPoolVec, rcp.connPool.connList.Wf) →
    ∀ rcp ∈ s'.connPoolVec, rcp.connPool.connList.Wf

theorem Steady.refl (s : PooledClientImpl) : Steady s s := ⟨rfl, rfl, id⟩

theorem steady_setPool {s : PooledClientImpl} {i : ℕ} {rcp : ReplicaConnPool} {p : ConnPool}
    (hrcp : s.connPoolVec[i]? = some rcp)
    (hp : rcp.connPool.connList.Wf → p.connList.Wf) : Steady s (s.setPool i rcp p) where
  length := PooledClientImpl.setPool_length i rcp p
  index := rfl
  wf hwf := PooledClientImpl.forall_setPool hwf (hp (hwf rcp (List.mem_of_getElem? hrcp)))

theorem steady_tryReplica {net : ℕ → Bool} {out : Outside} {hostIdx : BitVec 32}
    {s s' : PooledClientImpl} {h h' : Clients} {o : Option ThriftClient}
    (htry : s.tryReplica net out hostIdx h = some (o, s', h')) : Steady s s' := by
  unfold PooledClientImpl.tryReplica at htry
  split at htry
  · cases htry
  · rename_i rcp hrcp
    split_ifs at htry
    · cases htry
      exact Steady.refl s
    · cases htry
      exact steady_setPool hrcp fun hwf => (ConnPool.takes_tryAcquire hwf net out h).wf

theorem steady_putBack {net : ℕ → Bool} {out : Outside} {i : ℕ} {c : ThriftClient}
    {error : ConnErrorStatus} {s s' : PooledClientImpl} {h h' : Clients}
    (hwf : ∀ rcp ∈ s.connPoolVec, rcp.connPool.connList.Wf)
    (hput : s.putBack net out i c error h = some (s', h')) : Steady s s' := by
  rcases hrcp : s.connPoolVec[i]? with - | rcp
  · rw [PooledClientImpl.putBack, hrcp] at hput
    cases hput
  · obtain ⟨p, h'', hput', hget, -⟩ := PooledClientImpl.putBack_spec hrcp
      (hwf rcp (List.mem_of_getElem? hrcp)) net out c error h
    obtain ⟨rfl, -⟩ := Prod.mk.inj (Option.some.inj (hput.symm.trans hput'))
    exact steady_setPool hrcp fun _ => hget.wf

namespace Service

variable {H : PilotHost} {s s' : Service} {k g m : ℕ}

/-- The lists of idle clients are in order. -/
def ListsWf (s : Service) : Prop := ∀ rcp ∈ s.vec, rcp.connPool.connList.Wf

/-- What a step of the `j`-th call does apart from the call itself. -/
theorem turn_steady {j : ℕ} {a : Acquire} (out : Outside) (s : Service) :
    (∀ k, k ≠ j → (s.turn j out a).acquiring[k]? = s.acquiring[k]?) ∧
      (Steady s.pooled (s.turn j out a).pooled ∨ a.takes s.vec.length = true ∧
        (s.turn j out a).pooled =
          { s.pooled with curReplicaIndex := s.pooled.curReplicaIndex + 1 }) := by
  have hset : ∀ b k, k ≠ j → (s.acquiring.set j b)[k]? = s.acquiring[k]? :=
    fun b k hne => List.getElem?_set_ne hne.symm
  cases a with
  | next i =>
    rw [turn]
    split_ifs with hlt
    · exact ⟨hset _, Or.inr ⟨decide_eq_true hlt, rfl⟩⟩
    · exact ⟨hset _, Or.inl (Steady.refl _)⟩
  | visit i hostIdx =>
    rw [turn]
    split
    · exact ⟨fun _ _ => rfl, Or.inl (Steady.refl _)⟩
    · rename_i pooled clients htry
      exact ⟨hset _, Or.inl (steady_tryReplica htry)⟩
    · rename_i c pooled clients htry
      exact ⟨hset _, Or.inl (steady_tryReplica htry)⟩
  | returned result => exact ⟨fun _ _ => rfl, Or.inl (Steady.refl _)⟩

theorem finish_steady {j : ℕ} (out : Outside) (r : Release) (hs : s.ListsWf) :
    (s.finish j out r).acquiring = s.acquiring ∧ Steady s.pooled (s.finish j out r).pooled := by
  unfold finish
  split
  · exact ⟨rfl, Steady.refl _⟩
  · split
    · exact ⟨rfl, Steady.refl _⟩
    · rename_i hput
      exact ⟨rfl, steady_putBack hs hput⟩

theorem ListsWf.step {e : Event} (hs : s.ListsWf) (hstep : Service.step H s e = some s') :
    s'.ListsWf := by
  obtain ⟨-, hhappens⟩ := step_happens hstep
  cases hhappens with
  | network net => exact hs
  | idle hread => exact hs
  | change hlock hread =>
    exact (PooledClientImpl.change_reworks (F := fun rcp => rcp.connPool.connList.Wf)
      (fun _ hwf => hwf) (fun _ _ _ hmade => hmade.wf) s.pooled s.clients hs).1
  | acquire => exact hs
  | turn out ha =>
    rcases (turn_steady out s).2 with hsteady | ⟨-, hpooled⟩
    · exact hsteady.wf hs
    · rw [ListsWf, vec, hpooled]
      exact hs
  | release isOpen error hc => exact hs
  | finish out hr => exact (finish_steady out _ hs).2.wf hs

theorem listsWf_of_run (path : List UInt8) (num : ℤ) {es : List Event}
    (hrun : runEvents (step H) (start path num) es = some s) : s.ListsWf := by
  have halways : Always (step H) ListsWf (start path num) es :=
    Always.of_guarded (fun _ _ _ hs _ hstep => hs.step hstep) (fun _ hs => hs)
      (fun _ hrcp => nomatch hrcp) (guarded_true _ es)
  exact halways.last hrun

/-! ### A replica that is ready -/

/-- The replica at the position `g` has a status other than zero, is HEALTHY,
and has an idle client whose `open_service` succeeds. -/
def Usable (g : ℕ) (s : Service) : Prop :=
  ∃ rcp ∈ s.vec[g]?, rcp.status ≠ 0 ∧ rcp.connPool.Healthy ∧
    ∃ c ∈ rcp.connPool.connList.items, c.Opens s.net

/-- The same, where the client is the one that has been idle longest. -/
def Ready (g : ℕ) (s : Service) : Prop :=
  ∃ rcp ∈ s.vec[g]?, rcp.status ≠ 0 ∧ rcp.connPool.Healthy ∧
    ∃ c ∈ rcp.connPool.connList.items.getLast?, c.Opens s.net

/-- The `k`-th call has not returned. -/
def Running (k : ℕ) (s : Service) : Prop := ∃ a ∈ s.acquiring[k]?, a.running = true

instance (g : ℕ) (s : Service) : Decidable (s.Usable g) :=
  inferInstanceAs (Decidable (∃ rcp ∈ s.vec[g]?, _))

instance (g : ℕ) (s : Service) : Decidable (s.Ready g) :=
  inferInstanceAs (Decidable (∃ rcp ∈ s.vec[g]?, _))

instance (k : ℕ) (s : Service) : Decidable (s.Running k) :=
  inferInstanceAs (Decidable (∃ a ∈ s.acquiring[k]?, _))

theorem Ready.lt (h : s.Ready g) : g < s.vec.length := by
  obtain ⟨rcp, hrcp, -⟩ := h
  exact (List.getElem?_eq_some_iff.mp hrcp).1

/-- A call that tries a replica that is ready gets a client. -/
theorem Ready.tryReplica (h : s.Ready g) (hs : s.ListsWf) (out : Outside) {hostIdx : BitVec 32}
    (hslot : slot s.vec.length hostIdx = g) :
    ∃ c pooled clients,
      s.pooled.tryReplica s.net out hostIdx s.clients = some (some c, pooled, clients) := by
  obtain ⟨rcp, hrcp, hstatus, hhealthy, c, hc, hopen⟩ := h
  have hwf := hs rcp (List.mem_of_getElem? hrcp)
  obtain ⟨c', hc'⟩ := ConnPool.handOut_eq_some s.net out.retry s.clients hwf hc hopen
  have hget : s.pooled.connPoolVec[slot s.pooled.connPoolVec.length hostIdx]? = some rcp := by
    rw [show slot s.pooled.connPoolVec.length hostIdx = g from hslot]
    exact hrcp
  have htry : (rcp.connPool.tryAcquire s.net out s.clients).1 = some c' := by
    rw [ConnPool.tryAcquire, hhealthy out.now]
    exact hc'
  unfold PooledClientImpl.tryReplica
  rw [hget]
  dsimp only
  rw [if_neg hstatus, htry]
  exact ⟨_, _, _, rfl⟩

/-! ### The call from its first step to its last -/

/-- The `k`-th call is on track, and has at most `m` steps to make. -/
def Tracks (k g m : ℕ) (s : Service) : Prop :=
  ∃ a, s.acquiring[k]? = some a ∧ a.OnTrack g s.vec.length s.pooled.curReplicaIndex ∧
    a.left s.vec.length ≤ m

/-- No other call takes a value of the counter between the first and the last
that the `k`-th call takes, and its values do not wrap. -/
def Alone (k : ℕ) (s : Service) : Event → Prop
  | .turn j _ =>
    if j = k then
      s.acquiring[k]? = some (.next 0) → Unwrapped s.pooled.curReplicaIndex s.vec.length
    else
      ∀ a ∈ s.acquiring[j]?, a.takes s.vec.length = true →
        ∀ b ∈ s.acquiring[k]?, b.midway s.vec.length = false
  | _ => True

instance (k : ℕ) (s : Service) : ∀ e, Decidable (Alone k s e)
  | .turn j _ =>
    if hj : j = k then decidable_of_iff (s.acquiring[k]? = some (.next 0) →
      Unwrapped s.pooled.curReplicaIndex s.vec.length) (by rw [Alone, if_pos hj])
    else decidable_of_iff (∀ a ∈ s.acquiring[j]?, a.takes s.vec.length = true →
      ∀ b ∈ s.acquiring[k]?, b.midway s.vec.length = false) (by rw [Alone, if_neg hj])
  | .network _ | .update .. | .acquire | .release .. | .finish .. => isTrue trivial

theorem Tracks.of_steady (ht : s.Tracks k g m) (hcall : s'.acquiring[k]? = s.acquiring[k]?)
    (hsteady : Steady s.pooled s'.pooled) : s'.Tracks k g m := by
  obtain ⟨a, ha, htrack, hleft⟩ := ht
  refine ⟨a, hcall.trans ha, ?_, ?_⟩
  · rw [vec, hsteady.length, hsteady.index]
    exact htrack
  · rw [vec, hsteady.length]
    exact hleft

/-- The call is over. -/
theorem tracks_returned {c : ThriftClient}
    (ha : s.acquiring[k]? = some (.returned (some c))) : s.Tracks k g m :=
  ⟨_, ha, Option.some_ne_none c, Nat.zero_le m⟩

/-- A step of the call itself. -/
theorem Tracks.turn {a : Acquire} (ht : s.Tracks k g m) (hs : s.ListsWf)
    (hready : s.Running k → s.Ready g)
    (hfirst : s.acquiring[k]? = some (.next 0) →
      Unwrapped s.pooled.curReplicaIndex s.vec.length)
    (out : Outside) (ha : s.acquiring[k]? = some a) : (s.turn k out a).Tracks k g (m - 1) := by
  obtain ⟨a', ha', htrack, hleft⟩ := ht
  obtain rfl := Option.some.inj (ha.symm.trans ha')
  have hlt := (List.getElem?_eq_some_iff.mp ha).1
  have hset (b : Acquire) : (s.acquiring.set k b)[k]? = some b := List.getElem?_set_self hlt
  cases a with
  | next i =>
    have hi := htrack.lt (hready ⟨_, ha, rfl⟩).lt
    rw [Service.turn, if_pos hi]
    refine ⟨_, hset _, htrack.take hi ?_, Acquire.left_visit hleft⟩
    rintro rfl
    exact hfirst ha
  | visit i hostIdx =>
    have hi := htrack.1
    have hne : s.vec ≠ [] := List.length_pos_iff.mp (Nat.zero_lt_of_lt hi)
    rw [Service.turn]
    split
    · -- the vector has not become empty
      rename_i hnone
      obtain ⟨rcp, hrcp⟩ := PooledClientImpl.slot_get hne hostIdx
      obtain ⟨o, p, h', htry, -⟩ := PooledClientImpl.tryReplica_spec hrcp
        (hs rcp (List.mem_of_getElem? hrcp)) s.net out s.clients
      rw [hnone] at htry
      cases htry
    · -- no client: the pool was another than `g`
      rename_i pooled clients htry
      have hmiss : slot s.vec.length hostIdx ≠ g := by
        intro hslot
        obtain ⟨c, pooled', clients', hsome⟩ :=
          (hready ⟨_, ha, rfl⟩).tryReplica hs out hslot
        rw [htry] at hsome
        cases hsome
      have hsteady := steady_tryReplica htry
      refine ⟨_, hset _, ?_, ?_⟩
      · rw [vec, hsteady.length, hsteady.index]
        exact htrack.miss hmiss
      · rw [vec, hsteady.length]
        exact Acquire.left_next hleft
    · exact tracks_returned (hset _)
  | returned result => exact ⟨_, ha, htrack, Nat.zero_le _⟩

end Service

/-- The event is a step of the `k`-th call. -/
def Event.isTurn (k : ℕ) : Event → Bool
  | .turn j _ => j = k
  | _ => false

namespace Service

variable {H : PilotHost} {s s' : Service} {k g m : ℕ}

theorem Tracks.step {e : Event} (ht : s.Tracks k g m) (hs : s.ListsWf)
    (hready : s.Running k → s.Ready g) (halone : Alone k s e)
    (hstep : Service.step H s e = some s') :
    s'.Tracks k g (m - (e.isTurn k).toNat) := by
  obtain ⟨-, hhappens⟩ := step_happens hstep
  cases hhappens with
  | network net => exact ht
  | idle hread => exact ht
  | change hlock hread =>
    -- no call holds the reader lock, so this one has returned
    obtain ⟨a, ha, htrack, -⟩ := ht
    rw [readLocked, List.any_eq_false] at hlock
    cases a with
    | next i => exact absurd rfl (hlock _ (List.mem_of_getElem? ha))
    | visit i hostIdx => exact absurd rfl (hlock _ (List.mem_of_getElem? ha))
    | returned result => exact ⟨_, ha, htrack, Nat.zero_le _⟩
  | acquire =>
    obtain ⟨a, ha, htrack, hleft⟩ := ht
    exact ⟨a, (List.getElem?_append_left (List.getElem?_eq_some_iff.mp ha).1).trans ha, htrack,
      hleft⟩
  | @turn j a out ha =>
    by_cases hj : j = k
    · subst hj
      have hcount : (Event.isTurn j (.turn j out)).toNat = 1 := by simp [Event.isTurn]
      rw [Alone, if_pos rfl] at halone
      rw [hcount]
      exact ht.turn hs hready halone out ha
    · have hcount : (Event.isTurn k (.turn j out)).toNat = 0 := by simp [Event.isTurn, hj]
      rw [Alone, if_neg hj] at halone
      rw [hcount, Nat.sub_zero]
      obtain ⟨hcall, hsteady | ⟨htakes, hpooled⟩⟩ := turn_steady (a := a) out s
      · exact ht.of_steady (hcall k (Ne.symm hj)) hsteady
      · obtain ⟨b, hb, htrack, hleft⟩ := ht
        refine ⟨b, (hcall k (Ne.symm hj)).trans hb, ?_, ?_⟩
        · rw [vec, hpooled]
          exact htrack.other (halone a ha htakes b hb)
        · rw [vec, hpooled]
          exact hleft
  | release isOpen error hc => exact ht
  | finish out hr =>
    obtain ⟨hcalls, hsteady⟩ := finish_steady out _ hs
    exact ht.of_steady (by rw [hcalls]) hsteady

theorem Tracks.run {es : List Event} (ht : s.Tracks k g m) (hs : s.ListsWf)
    (hready : Always (Service.step H) (fun t => t.Running k → t.Ready g) s es)
    (halone : Guarded (Service.step H) (Alone k) s es)
    (hrun : runEvents (Service.step H) s es = some s') :
    s'.Tracks k g (m - es.countP (Event.isTurn k)) := by
  induction es generalizing s m with
  | nil =>
    obtain rfl := Option.some.inj hrun
    exact ht
  | cons e es ih =>
    obtain ⟨t, ht', hrest⟩ := Option.bind_eq_some_iff.mp hrun
    obtain ⟨hg, hguard⟩ := halone t ht'
    have hnext := ih (ht.step hs hready.1 hg ht') (hs.step ht') (hready.2 t ht') hguard hrest
    have hcount : m - (e.isTurn k).toNat - es.countP (Event.isTurn k)
        = m - (e :: es).countP (Event.isTurn k) := by
      rw [List.countP_cons, Nat.sub_sub]
      cases e.isTurn k <;> simp [Nat.add_comm]
    rwa [hcount] at hnext

/-- **A call finds a replica that is ready.**  In any run of the service, let the
`k`-th call of `acquire_thrift_client()` begin.  If some replica is ready as long
as the call runs, and no other call takes a value of the counter between the
first and the last of this one, and these do not wrap, then the call does not
return `NULL`, and it has returned a client after two steps for every pool. -/
theorem acquire_finds_ready (path : List UInt8) (num : ℤ) (es₀ es : List Event)
    (hreach : runEvents (step H) (start path num) es₀ = some s)
    (hbegin : s.acquiring[k]? = some (.next 0))
    (hready : Always (step H) (fun t => t.Running k → t.Ready g) s es)
    (halone : Guarded (step H) (Alone k) s es) (hrun : runEvents (step H) s es = some s') :
    s'.acquiring[k]? ≠ some (.returned none) ∧
      (2 * s.vec.length ≤ es.countP (Event.isTurn k) →
        ∃ c, s'.acquiring[k]? = some (.returned (some c))) := by
  have hstart : s.Tracks k g (2 * s.vec.length) :=
    ⟨_, hbegin, Or.inl rfl, le_rfl⟩
  obtain ⟨a, ha, htrack, hleft⟩ := hstart.run (listsWf_of_run path num hreach) hready halone hrun
  have hlast := hready.last hrun
  refine ⟨?_, fun henough => ?_⟩
  · intro hnull
    obtain rfl := Option.some.inj (ha.symm.trans hnull)
    exact htrack rfl
  · rw [Nat.sub_eq_zero_of_le henough, Nat.le_zero] at hleft
    cases a with
    | next i =>
      have hi := htrack.lt (hlast ⟨_, ha, rfl⟩).lt
      simp only [Acquire.left] at hleft
      omega
    | visit i hostIdx =>
      have hi := htrack.1
      simp only [Acquire.left] at hleft
      omega
    | returned result =>
      obtain ⟨c, rfl⟩ := Option.ne_none_iff_exists'.mp htrack
      exact ⟨c, ha⟩

/-- Three replicas, of which the first two have no idle client when the third
call of the run begins. -/
def thirdCall : Service :=
  (runEvents (step smallHost) (start rpcPath 1)
    (taking [server 1, server 2, server 3] 2 ++ [.acquire])).get
    (by decide +kernel)

theorem thirdCall_reached :
    runEvents (step smallHost) (start rpcPath 1)
      (taking [server 1, server 2, server 3] 2 ++ [.acquire]) = some thirdCall :=
  (Option.some_get _).symm

/-- The call finds the third replica, while another call begins. -/
theorem acquire_finds_third :
    ∃ s', runEvents (step smallHost) thirdCall
        ([.turn 2 plainOutside, .acquire] ++ List.replicate 5 (.turn 2 plainOutside)) = some s' ∧
      ∃ c, s'.acquiring[2]? = some (.returned (some c)) := by
  obtain ⟨s', hs'⟩ : ∃ s', runEvents (step smallHost) thirdCall
      ([.turn 2 plainOutside, .acquire] ++ List.replicate 5 (.turn 2 plainOutside)) = some s' :=
    Option.isSome_iff_exists.mp (by decide +kernel)
  exact ⟨s', hs', (acquire_finds_ready (g := 2) rpcPath 1 _ _ thirdCall_reached (by decide +kernel)
    (by decide +kernel) (by decide +kernel) hs').2 (by decide +kernel)⟩

/-- The first of two replicas has one connection, and the second three.  Two
clients are taken, and the third call begins. -/
def overtakenBegin : List Event :=
  [.network fun c => c = 0 ∨ 3 ≤ c,
    .update ⟨.refreshAll, []⟩ (listing [server 1, server 2])].append
    ((calls 0 2).append [.acquire])

/-- A fourth call takes its value between the two values of the third. -/
def overtaken : List Event :=
  [.turn 2 plainOutside, .turn 2 plainOutside].append
    ((calls 3 1).append (List.replicate 3 (.turn 2 plainOutside)))

/-- A client comes back that cannot connect any more, and then another, so that
the first is the one that has been idle longest when the third call begins. -/
def oldestBegin : List Event :=
  (taking [server 1] 1).append
    ([.network fun c => c ≠ 0, .release 0 true .connReconnect, .finish 0 plainOutside].append
      ((calls 1 1).append [.release 0 true .connOk, .finish 0 plainOutside, .acquire]))

/-- The third call, when the second `open_service` fails too. -/
def oldest : List Event := List.replicate 3 (.turn 2 { plainOutside with retry := false })

/-- The state of `thirdCall`, when the counter is at -1. -/
def wrapping : Service :=
  { thirdCall with pooled := { thirdCall.pooled with curReplicaIndex := -1 } }

/-- **A call misses a usable replica.**  Of two replicas the first has no idle
client, and another call takes the value in between, so that both values of the
call stand for the first.  Of two idle clients of a replica the one that has
waited longest cannot connect.  The counter passes from -1 to 0, and two of three
values stand for the same replica. -/
theorem acquire_misses :
    (∃ s ∈ runEvents (step smallHost) (start rpcPath 3) overtakenBegin,
      Always (step smallHost) (fun t => t.Running 2 → t.Usable 1) s overtaken ∧
        ∃ s' ∈ runEvents (step smallHost) s overtaken,
          s'.acquiring[2]? = some (.returned none)) ∧
    (∃ s ∈ runEvents (step smallHost) (start rpcPath 2) oldestBegin,
      Always (step smallHost) (fun t => t.Running 2 → t.Usable 0) s oldest ∧
        ∃ s' ∈ runEvents (step smallHost) s oldest,
          s'.acquiring[2]? = some (.returned none)) ∧
    Always (step smallHost) (fun t => t.Running 2 → t.Usable 2) wrapping
        (List.replicate 7 (.turn 2 plainOutside)) ∧
      ∃ s' ∈ runEvents (step smallHost) wrapping (List.replicate 7 (.turn 2 plainOutside)),
        s'.acquiring[2]? = some (.returned none) := by
  decide +kernel

end Service

end Pilot

end Xkim
