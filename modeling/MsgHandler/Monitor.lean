/-
MsgHandler/Monitor.lean

A monitor with one condition variable.

Any number of threads call operations on a resource that a mutex protects.  An
operation tests a condition and waits while it is false:

    lock; while (!condition) wait; take; unlock

Other operations change the resource and wake one of the waiting threads, or
all of them, or none.  A thread that is woken has to get the mutex again, and
other threads may get it first; threads also wake up without a reason, and a
call may give up after some time.

`attempt` is one test of the condition, with what follows if it is true.  As the
mutex is held from the test to the end of the operation, these are the steps of
the system (`Event`), in any order.

Two things can go wrong.  A wake-up can be lost, so that threads sleep while
there is something for them; `always_awake` and `always_served` say when this is
excluded.  And an element can be lost, taken twice or, in a queue, overtaken:
`always_accounted`.
-/
import MsgHandler.Run

namespace Xkim

variable {T R A P V X : Type*}

/-- Two properties of every state. -/
theorem Always.and {S E : Type*} {step : S → E → Option S} {P Q : S → Prop} {s : S} {es : List E}
    (h : Always step P s es) (h' : Always step Q s es) :
    Always step (fun s => P s ∧ Q s) s es := by
  induction es generalizing s with
  | nil => exact ⟨h, h'⟩
  | cons e es ih => exact ⟨⟨h.1, h'.1⟩, fun s' hs' => ih (h.2 s' hs') (h'.2 s' hs')⟩

/-- Which threads an operation wakes. -/
inductive Wake
  | nobody
  | one
  | all
  deriving DecidableEq, Repr

/-- The operations of a monitor: calls `A`, which wait and return a `V`, and
other operations `P`. -/
structure Monitor (R A P V : Type*) where
  /-- One test of the condition: none if the call has to wait. -/
  attempt : A → R → Option (V × R)
  /-- What the call returns when it gives up; none if it never does. -/
  timeout : A → Option V
  produce : P → R → R
  wake : P → Wake

namespace Monitor

/-- Where a thread is. -/
inductive Status (A : Type*)
  /-- It is not in a call. -/
  | outside
  /-- It waits. -/
  | asleep (a : A)
  /-- It has been woken, and goes for the mutex. -/
  | awake (a : A)
  /-- Its time was over, and it goes for the mutex. -/
  | late (a : A)
  deriving DecidableEq

namespace Status

/-- It waits. -/
def isAsleep : Status A → Bool
  | .asleep _ => true
  | _ => false

/-- It has been woken. -/
def isAwake : Status A → Bool
  | .awake _ => true
  | _ => false

/-- If it waits, it is woken. -/
def woken : Status A → Status A
  | .asleep a => .awake a
  | s => s

@[simp] theorem isAsleep_woken (s : Status A) : s.woken.isAsleep = false := by cases s <;> rfl

end Status

/-- The resource, the threads, and a record of what the calls have returned and of
what the other operations were, with the resource that they found. -/
structure State (T R A P V : Type*) where
  resource : R
  status : T → Status A
  returned : List (T × V) := []
  produced : List (P × R) := []

/-- What can happen next. -/
inductive Event (T A P : Type*)
  /-- A thread begins a call, and gets the mutex. -/
  | call (t : T) (a : A)
  /-- A thread gets the mutex again. -/
  | resume (t : T)
  /-- A thread wakes up without a reason. -/
  | stir (t : T)
  /-- The time of a thread is over. -/
  | expire (t : T)
  /-- Another operation, and the thread that it wakes, if it is to wake one. -/
  | produce (p : P) (t : Option T)

variable [DecidableEq T] (M : Monitor R A P V)

/-- Nobody is in a call. -/
def start (r : R) : State T R A P V := ⟨r, fun _ => .outside, [], []⟩

/-- The thread `t` tests the condition of its call. -/
def enter (t : T) (a : A) (s : State T R A P V) : State T R A P V :=
  match M.attempt a s.resource with
  | none => { s with status := Function.update s.status t (.asleep a) }
  | some r =>
    { s with
      resource := r.2
      status := Function.update s.status t .outside
      returned := s.returned ++ [(t, r.1)] }

/-- The operation `p`, after which the threads are as in `status`. -/
def act (p : P) (status : T → Status A) (s : State T R A P V) : State T R A P V :=
  { s with
    resource := M.produce p s.resource
    status := status
    produced := s.produced ++ [(p, s.resource)] }

/-- One event. -/
def step [Fintype T] (s : State T R A P V) : Event T A P → Option (State T R A P V)
  | .call t a =>
    match s.status t with
    | .outside => some (M.enter t a s)
    | _ => none
  | .resume t =>
    match s.status t with
    | .awake a => some (M.enter t a s)
    | .late a => (M.timeout a).map fun v =>
      { s with
        status := Function.update s.status t .outside
        returned := s.returned ++ [(t, v)] }
    | _ => none
  | .stir t =>
    match s.status t with
    | .asleep a => some { s with status := Function.update s.status t (.awake a) }
    | _ => none
  | .expire t =>
    match s.status t with
    | .asleep a =>
      if (M.timeout a).isSome then some { s with status := Function.update s.status t (.late a) }
      else none
    | _ => none
  | .produce p t =>
    match M.wake p, t with
    | .nobody, none => some (M.act p s.status s)
    | .all, none => some (M.act p (fun t => (s.status t).woken) s)
    | .one, none => if ∀ t, (s.status t).isAsleep = false then some (M.act p s.status s) else none
    | .one, some t =>
      match s.status t with
      | .asleep a => some (M.act p (Function.update s.status t (.awake a)) s)
      | _ => none
    | _, _ => none

/-- The other operations are used as their owners promise. -/
def Allowed (Ok : P → R → Prop) (s : State T R A P V) : Event T A P → Prop
  | .produce p _ => Ok p s.resource
  | _ => True

instance {Ok : P → R → Prop} [∀ p r, Decidable (Ok p r)] (s : State T R A P V) (e : Event T A P) :
    Decidable (Allowed Ok s e) :=
  match e with
  | .produce _ _ => inferInstanceAs (Decidable (Ok _ _))
  | .call _ _ | .resume _ | .stir _ | .expire _ => isTrue trivial

/-! ### What a step does -/

/-- The threads before and after an operation that wakes some of them. -/
inductive Wakes : Wake → (T → Status A) → (T → Status A) → Prop
  | nobody (st) : Wakes .nobody st st
  | all (st) : Wakes .all st fun t => (st t).woken
  | none {st} (h : ∀ t, (st t).isAsleep = false) : Wakes .one st st
  | one {st} {t : T} {a : A} (h : st t = .asleep a) :
    Wakes .one st (Function.update st t (.awake a))

/-- One step, within the promises `Ok`. -/
inductive Moves (Ok : P → R → Prop) (s : State T R A P V) : State T R A P V → Prop
  | waits {t a} (h : s.status t = .outside ∨ s.status t = .awake a)
    (hwait : M.attempt a s.resource = none) :
    Moves Ok s { s with status := Function.update s.status t (.asleep a) }
  | returns {t a v r} (h : s.status t = .outside ∨ s.status t = .awake a)
    (htake : M.attempt a s.resource = some (v, r)) :
    Moves Ok s
      { s with
        resource := r
        status := Function.update s.status t .outside
        returned := s.returned ++ [(t, v)] }
  | givesUp {t a v} (h : s.status t = .late a) (hv : M.timeout a = some v) :
    Moves Ok s
      { s with
        status := Function.update s.status t .outside
        returned := s.returned ++ [(t, v)] }
  | stirs {t a} (h : s.status t = .asleep a) :
    Moves Ok s { s with status := Function.update s.status t (.awake a) }
  | expires {t a} (h : s.status t = .asleep a) :
    Moves Ok s { s with status := Function.update s.status t (.late a) }
  | acts {p st} (hok : Ok p s.resource) (h : Wakes (M.wake p) s.status st) :
    Moves Ok s (M.act p st s)

variable {M} {Ok : P → R → Prop} {s s' : State T R A P V} {e : Event T A P}

theorem moves_enter {t : T} {a : A} (h : s.status t = .outside ∨ s.status t = .awake a) :
    Moves M Ok s (M.enter t a s) := by
  unfold enter
  split
  · rename_i hwait
    exact .waits h hwait
  · rename_i r htake
    exact .returns h htake

theorem moves_of_step [Fintype T] (hg : Allowed Ok s e) (h : step M s e = some s') :
    Moves M Ok s s' := by
  cases e with
  | call t a =>
    simp only [step] at h
    split at h
    · rename_i hst
      obtain rfl := Option.some.inj h
      exact moves_enter (.inl hst)
    · cases h
  | resume t =>
    simp only [step] at h
    split at h
    · rename_i a hst
      obtain rfl := Option.some.inj h
      exact moves_enter (.inr hst)
    · rename_i a hst
      obtain ⟨v, hv, rfl⟩ := Option.map_eq_some_iff.mp h
      exact .givesUp hst hv
    · cases h
  | stir t =>
    simp only [step] at h
    split at h
    · rename_i a hst
      obtain rfl := Option.some.inj h
      exact .stirs hst
    · cases h
  | expire t =>
    simp only [step] at h
    split at h
    · rename_i a hst
      obtain ⟨-, h⟩ := Option.ite_none_right_eq_some.mp h
      obtain rfl := Option.some.inj h
      exact .expires hst
    · cases h
  | produce p t =>
    simp only [step] at h
    split at h
    · rename_i hw
      obtain rfl := Option.some.inj h
      exact .acts hg (hw ▸ .nobody _)
    · rename_i hw
      obtain rfl := Option.some.inj h
      exact .acts hg (hw ▸ .all _)
    · rename_i hw
      obtain ⟨hnone, h⟩ := Option.ite_none_right_eq_some.mp h
      obtain rfl := Option.some.inj h
      exact .acts hg (hw ▸ .none hnone)
    · rename_i t hw
      split at h
      · rename_i a hst
        obtain rfl := Option.some.inj h
        exact .acts hg (hw ▸ .one hst)
      · cases h
    · cases h

/-! ### Invariants of the resource -/

/-- What the operations keep true of the resource. -/
structure Keeps (M : Monitor R A P V) (Inv : R → Prop) (Ok : P → R → Prop) : Prop where
  attempt : ∀ {a r v r'}, Inv r → M.attempt a r = some (v, r') → Inv r'
  produce : ∀ {p r}, Inv r → Ok p r → Inv (M.produce p r)

variable {Inv : R → Prop}

theorem Keeps.moves (hM : M.Keeps Inv Ok) (h : Moves M Ok s s') (hs : Inv s.resource) :
    Inv s'.resource := by
  cases h with
  | waits | givesUp | stirs | expires => exact hs
  | returns _ htake => exact hM.attempt hs htake
  | acts hok _ => exact hM.produce hs hok

/-- **An invariant of the system**, beside one of the resource. -/
theorem Keeps.always [Fintype T] (hM : M.Keeps Inv Ok) {J Q : State T R A P V → Prop}
    (keep : ∀ s s', Inv s.resource → J s → Moves M Ok s s' → J s')
    (safe : ∀ s, Inv s.resource → J s → Q s) {s : State T R A P V} (hinv : Inv s.resource)
    (hJ : J s) {es : List (Event T A P)} (hg : Guarded (step M) (Allowed Ok) s es) :
    Always (step M) Q s es := by
  refine Always.of_guarded (I := fun s => Inv s.resource ∧ J s) ?_ (fun s hs => safe s hs.1 hs.2)
    ⟨hinv, hJ⟩ hg
  intro s e s' hs hg hstep
  have hmoves := moves_of_step hg hstep
  exact ⟨hM.moves hmoves hs.1, keep s s' hs.1 hs.2 hmoves⟩

/-- The invariant of the resource itself. -/
theorem Keeps.always_inv [Fintype T] (hM : M.Keeps Inv Ok) {s : State T R A P V}
    (hinv : Inv s.resource) {es : List (Event T A P)} (hg : Guarded (step M) (Allowed Ok) s es) :
    Always (step M) (fun s => Inv s.resource) s es :=
  hM.always (J := fun _ => True) (fun _ _ _ _ _ => trivial) (fun _ h _ => h) hinv trivial hg

/-! ### No lost wake-up -/

/-- Somebody is not asleep. -/
theorem Wakes.exists_not_asleep [Nonempty T] {w : Wake} (hw : w ≠ .nobody) {st st' : T → Status A}
    (h : Wakes w st st') : ∃ t, (st' t).isAsleep = false := by
  cases h with
  | nobody => exact absurd rfl hw
  | all => exact ⟨Classical.arbitrary T, Status.isAsleep_woken _⟩
  | none hnone => exact ⟨Classical.arbitrary T, hnone _⟩
  | @one _ t a hst =>
    refine ⟨t, ?_⟩
    rw [Function.update_self]
    rfl

/-- **Never are all threads asleep while a call could return.**  A call waits only
if the resource is not ready, and an operation that makes it ready wakes
somebody. -/
theorem always_awake [Fintype T] [Nonempty T] (hM : M.Keeps Inv Ok) (Ready : R → Prop)
    (hwait : ∀ {a r}, Inv r → M.attempt a r = none → ¬ Ready r)
    (hquiet : ∀ {p r}, Inv r → Ok p r → M.wake p = .nobody → Ready (M.produce p r) → Ready r)
    {r : R} (hr : Inv r) {es : List (Event T A P)}
    (hg : Guarded (step M) (Allowed Ok) (start r) es) :
    Always (step M) (fun s => Ready s.resource → ∃ t, (s.status t).isAsleep = false) (start r)
      es := by
  refine hM.always (J := fun s => Ready s.resource → ∃ t, (s.status t).isAsleep = false) ?_
    (fun _ _ h => h) hr (fun _ => ⟨Classical.arbitrary T, rfl⟩) hg
  intro s s' hinv hs hmoves hready
  -- whoever has moved is awake, unless the resource is not ready
  have hmoved (t : T) {st : Status A} (hst : st.isAsleep = false) :
      ∃ u, (Function.update s.status t st u).isAsleep = false :=
    ⟨t, by rw [Function.update_self]; exact hst⟩
  cases hmoves with
  | waits _ hnone => exact absurd hready (hwait hinv hnone)
  | returns => exact hmoved _ rfl
  | givesUp => exact hmoved _ rfl
  | stirs => exact hmoved _ rfl
  | expires => exact hmoved _ rfl
  | @acts p st hok hwakes =>
    by_cases hw : M.wake p = .nobody
    · rw [hw] at hwakes
      cases hwakes
      exact hs (hquiet hinv hok hw hready)
    · exact hwakes.exists_not_asleep hw

/-! ### Enough threads awake -/

/-- The number of threads that have been woken. -/
def awakeCount [Fintype T] (st : T → Status A) : ℕ := ∑ t, (st t).isAwake.toNat

/-- One thread changes. -/
theorem awakeCount_update [Fintype T] (st : T → Status A) (t : T) (x : Status A) :
    awakeCount (Function.update st t x) + (st t).isAwake.toNat =
      awakeCount st + x.isAwake.toNat := by
  have hrest : ∑ u ∈ Finset.univ.erase t, (Function.update st t x u).isAwake.toNat =
      ∑ u ∈ Finset.univ.erase t, (st u).isAwake.toNat := by
    refine Finset.sum_congr rfl fun u hu => ?_
    rw [Function.update_of_ne (Finset.ne_of_mem_erase hu)]
  unfold awakeCount
  rw [← Finset.add_sum_erase _ _ (Finset.mem_univ t), hrest,
    ← Finset.add_sum_erase _ (fun u => (st u).isAwake.toNat) (Finset.mem_univ t),
    Function.update_self]
  ring

/-- There is somebody awake for each of `n` elements, as long as anybody sleeps. -/
def Served [Fintype T] (n : ℕ∞) (st : T → Status A) : Prop :=
  (∃ t, (st t).isAsleep = true) → n ≤ awakeCount st

/-- A thread that does not go to sleep, and is woken if it has been asleep. -/
theorem Served.update [Fintype T] {n n' : ℕ∞} {st : T → Status A} (h : Served n st) {t : T}
    {x : Status A} (hx : x.isAsleep = false)
    (hn : n' + (st t).isAwake.toNat ≤ n + x.isAwake.toNat) :
    Served n' (Function.update st t x) := by
  rintro ⟨u, hu⟩
  have hne : u ≠ t := by
    rintro rfl
    rw [Function.update_self, hx] at hu
    cases hu
  rw [Function.update_of_ne hne] at hu
  have hcount : (awakeCount (Function.update st t x) : ℕ∞) + (st t).isAwake.toNat =
      awakeCount st + x.isAwake.toNat := by
    exact_mod_cast awakeCount_update st t x
  refine (ENat.add_le_add_iff_right (ENat.natCast_ne_top (st t).isAwake.toNat)).mp ?_
  calc n' + (st t).isAwake.toNat ≤ n + x.isAwake.toNat := hn
    _ ≤ awakeCount st + x.isAwake.toNat := by gcongr; exact h ⟨u, hu⟩
    _ = awakeCount (Function.update st t x) + (st t).isAwake.toNat := hcount.symm

/-- **As long as a thread sleeps, there is one awake for each element.**  Every call
takes an element if there is one, and an operation that adds one wakes a thread. -/
theorem always_served [Fintype T] (hM : M.Keeps Inv Ok) (backlog : R → ℕ∞)
    (hwait : ∀ {a r}, Inv r → M.attempt a r = none → backlog r = 0)
    (htake : ∀ {a r v r'}, Inv r → M.attempt a r = some (v, r') →
      backlog r' = 0 ∨ backlog r' + 1 ≤ backlog r)
    (hquiet : ∀ {p r}, Inv r → Ok p r → M.wake p = .nobody →
      backlog (M.produce p r) ≤ backlog r)
    (hone : ∀ {p r}, Inv r → Ok p r → M.wake p = .one →
      backlog (M.produce p r) ≤ backlog r + 1)
    {r : R} (hr : Inv r) {es : List (Event T A P)}
    (hg : Guarded (step M) (Allowed Ok) (start r) es) :
    Always (step M) (fun s => Served (backlog s.resource) s.status) (start r) es := by
  refine hM.always (J := fun s => Served (backlog s.resource) s.status) ?_ (fun _ _ h => h) hr
    (fun ⟨_, h⟩ => absurd h Bool.false_ne_true) hg
  intro s s' hinv hs hmoves
  cases hmoves with
  | @waits t a _ hnone =>
    rintro -
    rw [hwait hinv hnone]
    exact zero_le
  | @returns t a v r h hsome =>
    rcases htake hinv hsome with hzero | htaken
    · rintro -
      exact hzero.trans_le zero_le
    refine hs.update rfl ?_
    rcases h with h | h
    · -- it came from outside, and has taken an element for nothing
      rw [h]
      gcongr
      exact le_self_add.trans htaken
    · rw [h]
      simpa [Status.isAwake] using htaken
  | @givesUp t a v h _ =>
    refine hs.update rfl ?_
    rw [h]
    exact le_rfl
  | @stirs t a h =>
    refine hs.update rfl ?_
    rw [h]
    simp [Status.isAwake]
  | @expires t a h =>
    refine hs.update rfl ?_
    rw [h]
    exact le_rfl
  | @acts p st hok hwakes =>
    generalize hw : M.wake p = w at hwakes
    cases hwakes with
    | nobody => exact fun hsleep => (hquiet hinv hok hw).trans (hs hsleep)
    | all =>
      rintro ⟨t, ht⟩
      rw [show (M.act p _ s).status t = (s.status t).woken from rfl, Status.isAsleep_woken] at ht
      cases ht
    | none hnone =>
      rintro ⟨t, ht⟩
      rw [show (M.act p s.status s).status t = s.status t from rfl, hnone] at ht
      cases ht
    | @one _ t a h =>
      refine hs.update rfl ?_
      rw [h]
      exact (add_zero _).le.trans (hone hinv hok hw)

/-! ### Conservation -/

/-- An equivalence of lists that does not mind what stands before and behind:
equality, or equality up to the order. -/
structure Congruence (E : List X → List X → Prop) : Prop where
  equiv : Equivalence E
  append : ∀ {a a' b b'}, E a a' → E b b' → E (a ++ b) (a' ++ b')

theorem congruence_eq : Congruence (X := X) Eq :=
  ⟨eq_equivalence, fun h h' => by rw [h, h']⟩

theorem congruence_perm : Congruence (X := X) List.Perm :=
  ⟨⟨List.Perm.refl, List.Perm.symm, List.Perm.trans⟩, List.Perm.append⟩

/-- What the calls have taken. -/
def taken (items : V → List X) (s : State T R A P V) : List X :=
  s.returned.flatMap fun e => items e.2

/-- What the other operations have added. -/
def added (offer : P → R → List X) (s : State T R A P V) : List X :=
  s.produced.flatMap fun e => offer e.1 e.2

/-- **Every element that was added is taken once, or is still there.** -/
theorem always_accounted [Fintype T] (hM : M.Keeps Inv Ok) {E : List X → List X → Prop}
    (hE : Congruence E) (content : R → List X) (items : V → List X) (offer : P → R → List X)
    (htake : ∀ {a r v r'}, Inv r → M.attempt a r = some (v, r') →
      E (items v ++ content r') (content r))
    (hlate : ∀ {a v}, M.timeout a = some v → items v = [])
    (hadd : ∀ {p r}, Inv r → Ok p r → E (content r ++ offer p r) (content (M.produce p r)))
    {r : R} (hr : Inv r) (hempty : content r = []) {es : List (Event T A P)}
    (hg : Guarded (step M) (Allowed Ok) (start r) es) :
    Always (step M) (fun s => E (taken items s ++ content s.resource) (added offer s)) (start r)
      es := by
  refine hM.always (J := fun s => E (taken items s ++ content s.resource) (added offer s)) ?_
    (fun _ _ h => h) hr ?_ hg
  · intro s s' hinv hs hmoves
    cases hmoves with
    | waits | stirs | expires => exact hs
    | @returns t a v r _ hsome =>
      refine hE.equiv.trans ?_ hs
      have htaken : taken items { s with
          resource := r
          status := Function.update s.status t .outside
          returned := s.returned ++ [(t, v)] } = taken items s ++ items v := by
        simp [taken]
      rw [htaken, List.append_assoc]
      exact hE.append (hE.equiv.refl _) (htake hinv hsome)
    | @givesUp t a v _ hv =>
      have htaken : taken items { s with
          status := Function.update s.status t .outside
          returned := s.returned ++ [(t, v)] } = taken items s := by
        simp [taken, hlate hv]
      rw [htaken]
      exact hs
    | @acts p st hok _ =>
      have hadded : added offer (M.act p st s) = added offer s ++ offer p s.resource := by
        simp [added, act]
      rw [hadded]
      refine hE.equiv.trans ?_ (hE.append hs (hE.equiv.refl _))
      rw [List.append_assoc]
      exact hE.append (hE.equiv.refl _) (hE.equiv.symm (hadd hinv hok))
  · show E ([] ++ content r) []
    rw [hempty]
    exact hE.equiv.refl _

end Monitor

end Xkim
