/-
MsgHandler/Doorbell.lean

A queue whose consumer sleeps on a stream of bytes.

A producer appends a bundle of items to the queue and then writes one byte.
The consumer is woken as long as there is a byte to read; it takes the whole
queue and then reads some of the bytes, how many depending only on the number
of items it took.  Producers and consumer interleave freely, so there are
bytes that are still owed, and appends between a take and its read.

The consumer can oversleep: a state where it is idle, every byte has been
written, and the queue is not empty although there is no byte left.  Only a
read can lead there, and `always_awake_iff` says which ones do.  If every
bundle is a single item and no more bytes are read than items were taken
(one, if there were none), then bytes and owed bytes together cover the queue
throughout, and the consumer never oversleeps (`always_awake_of_single`).
-/
import MsgHandler.Run

namespace Xkim

/-- The queue, the bytes, and what the consumer has in hand. -/
structure Doorbell (α : Type*) where
  queue : List α
  /-- Appends whose byte has not been written yet. -/
  owed : ℕ
  bytes : ℕ
  /-- The number of items taken, while the consumer has not read. -/
  taken : Option ℕ
  deriving DecidableEq, Repr

namespace Doorbell

/-- One atomic step of a producer or of the consumer. -/
inductive Event (ε : Type*)
  | append (bundle : ε)
  | ring
  | take
  | read

/-- Nothing has happened. -/
def idle (α : Type*) : Doorbell α := ⟨[], 0, 0, none⟩

variable {α ε : Type*} (items : ε → List α) (amount : ℕ → ℕ)

/-- `items` are the items of a bundle; `amount n` is how many bytes the
consumer tries to read after it took `n` items. -/
def step (s : Doorbell α) : Event ε → Option (Doorbell α)
  | .append bundle => some { s with queue := s.queue ++ items bundle, owed := s.owed + 1 }
  | .ring => if s.owed = 0 then none else some { s with owed := s.owed - 1, bytes := s.bytes + 1 }
  | .take =>
    if s.taken = none ∧ 0 < s.bytes then some { s with queue := [], taken := some s.queue.length }
    else none
  | .read =>
    match s.taken with
    | some n => some { s with bytes := s.bytes - min (amount n) s.bytes, taken := none }
    | none => none

/-- The consumer does not sleep over a queue that is ready. -/
def Awake (s : Doorbell α) : Prop := s.taken = none → s.owed = 0 → s.queue ≠ [] → 0 < s.bytes

/-- A read may take the last byte only if nothing has been appended since
the take, or if a byte is still to come. -/
def LeavesByte (s : Doorbell α) : Event ε → Prop
  | .read => ∀ n, s.taken = some n → s.queue = [] ∨ 0 < s.owed ∨ amount n < s.bytes
  | _ => True

variable {items amount} {s s' : Doorbell α} {bundle : ε}

/-- **What a step does.** -/
theorem step_cases {e : Event ε} (h : step items amount s e = some s') :
    (∃ bundle, e = .append bundle ∧
        s' = { s with queue := s.queue ++ items bundle, owed := s.owed + 1 }) ∨
      (e = .ring ∧ 0 < s.owed ∧ s' = { s with owed := s.owed - 1, bytes := s.bytes + 1 }) ∨
      (e = .take ∧ s.taken = none ∧ 0 < s.bytes ∧
        s' = { s with queue := [], taken := some s.queue.length }) ∨
      ∃ n, e = .read ∧ s.taken = some n ∧
        s' = { s with bytes := s.bytes - min (amount n) s.bytes, taken := none } := by
  cases e with
  | append bundle => exact Or.inl ⟨bundle, rfl, (Option.some.inj h).symm⟩
  | ring =>
    dsimp only [step] at h
    split at h
    · cases h
    · rename_i howed
      exact Or.inr (Or.inl ⟨rfl, Nat.pos_of_ne_zero howed, (Option.some.inj h).symm⟩)
  | take =>
    dsimp only [step] at h
    split at h
    · rename_i hready
      exact Or.inr (Or.inr (Or.inl ⟨rfl, hready.1, hready.2, (Option.some.inj h).symm⟩))
    · cases h
  | read =>
    dsimp only [step] at h
    split at h
    · rename_i n htaken
      exact Or.inr (Or.inr (Or.inr ⟨n, rfl, htaken, (Option.some.inj h).symm⟩))
    · cases h

theorem awake_idle : (idle α).Awake := fun _ _ h => absurd rfl h

/-- A read within the guard does not put the consumer to sleep; no other step
could. -/
theorem Awake.step {e : Event ε} (hg : LeavesByte amount s e)
    (h : step items amount s e = some s') : s'.Awake := by
  rcases step_cases h with ⟨bundle, rfl, rfl⟩ | ⟨rfl, -, rfl⟩ | ⟨rfl, -, -, rfl⟩ |
    ⟨n, rfl, htaken, rfl⟩
  · exact fun _ howed _ => absurd howed (Nat.succ_ne_zero _)
  · exact fun _ _ _ => Nat.succ_pos _
  · exact fun htaken _ _ => nomatch htaken
  · -- only a read takes bytes away
    intro _ howed hqueue
    rcases hg n htaken with hnil | hpos | hlt
    · exact absurd hnil hqueue
    · exact absurd howed hpos.ne'
    · rw [min_eq_left hlt.le]
      exact Nat.sub_pos_of_lt hlt

/-- A read outside the guard does. -/
theorem leavesByte_of_awake {e : Event ε} (h : Doorbell.step items amount s e = some s')
    (hs' : s'.Awake) : LeavesByte amount s e := by
  rcases step_cases h with ⟨bundle, rfl, -⟩ | ⟨rfl, -⟩ | ⟨rfl, -⟩ | ⟨n, rfl, htaken, rfl⟩
  · trivial
  · trivial
  · trivial
  · intro k hk
    obtain rfl := Option.some.inj (htaken.symm.trans hk)
    by_contra hout
    push Not at hout
    obtain ⟨hqueue, howed, hle⟩ := hout
    have hpos := hs' rfl (Nat.le_zero.mp howed) hqueue
    rw [min_eq_right hle, Nat.sub_self] at hpos
    exact Nat.lt_irrefl 0 hpos

/-- **When the consumer never oversleeps.** -/
theorem always_awake_iff (es : List (Event ε)) :
    Always (step items amount) Awake (idle α) es ↔
      Guarded (step items amount) (LeavesByte amount) (idle α) es :=
  always_iff_guarded (fun _ _ _ _ _ hg h => Awake.step hg h) (fun _ h => h)
    (fun _ _ _ _ _ h hs' => leavesByte_of_awake h hs') awake_idle (guarded_true _ _)

/-! ### Bundles of one item -/

/-- The bytes that have been or will be written cover the queue, and what the
consumer will read. -/
def Covered (s : Doorbell α) : Prop :=
  s.queue.length + (s.taken.elim 0 fun n => max n 1) ≤ s.bytes + s.owed

theorem Covered.awake (h : s.Covered) : s.Awake := by
  intro htaken howed hqueue
  have hlen := List.length_pos_iff.mpr hqueue
  rw [Covered, htaken, howed] at h
  exact hlen.trans_le h

theorem Covered.step {e : Event ε}
    (hitems : ∀ bundle, e = .append bundle → (items bundle).length ≤ 1)
    (hamount : ∀ n, amount n ≤ max n 1) (hs : s.Covered) (h : step items amount s e = some s') :
    s'.Covered := by
  rcases step_cases h with ⟨bundle, rfl, rfl⟩ | ⟨rfl, howed, rfl⟩ | ⟨rfl, htaken, hbytes, rfl⟩ |
    ⟨n, rfl, htaken, rfl⟩
  · have hone := hitems bundle rfl
    simp only [Covered, List.length_append] at hs ⊢
    omega
  · simp only [Covered] at hs ⊢
    omega
  · -- an idle consumer has something to take, or at least the byte that woke it
    simp only [Covered, htaken, Option.elim_none, Option.elim_some, List.length_nil] at hs ⊢
    omega
  · have hread := hamount n
    simp only [Covered, htaken, Option.elim_none, Option.elim_some] at hs ⊢
    omega

/-- **With single items the consumer never oversleeps.** -/
theorem always_awake_of_single (hamount : ∀ n, amount n ≤ max n 1) {es : List (Event ε)}
    (hitems : ∀ bundle, .append bundle ∈ es → (items bundle).length ≤ 1) :
    Always (step items amount) Awake (idle α) es := by
  have hguard : Guarded (step items amount)
      (fun _ e => ∀ bundle, e = .append bundle → (items bundle).length ≤ 1) (idle α) es := by
    refine Guarded.of_forall ?_
    rintro e he - bundle rfl
    exact hitems bundle he
  exact Always.of_guarded (fun _ _ _ hs hg h => Covered.step hg hamount hs h)
    (fun _ hs => Covered.awake hs) (Nat.zero_le _) hguard

end Doorbell

end Xkim
