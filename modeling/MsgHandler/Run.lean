/-
MsgHandler/Run.lean

Runs of a system that reacts to events.

`step s e` is the state after the event `e` in the state `s`, or `none` when
`e` cannot happen there.  `Always P s es` says that `P` holds in every state
of the run from `s` under the events `es`, and `Guarded G s es` that every
event that happens does so in a state that allows it.

Two rules carry every result about runs.  `Always.of_guarded`: an invariant
that guarded events preserve holds throughout a guarded run.  And
`always_iff_guarded`: when an event outside its guard breaks the property at
once, the guarded runs are exactly the runs that keep it, among the runs
within a given assumption.
-/
import Mathlib

namespace Xkim

variable {S E : Type*} (step : S → E → Option S)

/-- `P` holds in every state of the run. -/
def Always (P : S → Prop) : S → List E → Prop
  | s, [] => P s
  | s, e :: es => P s ∧ ∀ s', step s e = some s' → Always P s' es

/-- Every event of the run happens within its guard. -/
def Guarded (G : S → E → Prop) : S → List E → Prop
  | _, [] => True
  | s, e :: es => ∀ s', step s e = some s' → G s e ∧ Guarded G s' es

/-- The state at the end of the run, if every event of it can happen. -/
def runEvents : S → List E → Option S
  | s, [] => some s
  | s, e :: es => (step s e).bind fun s' => runEvents s' es

variable {step} {I P : S → Prop} {G : S → E → Prop}

theorem Always.head {s : S} {es : List E} (h : Always step P s es) : P s := by
  cases es with
  | nil => exact h
  | cons e es => exact h.1

theorem Always.imp {Q : S → Prop} {s : S} {es : List E} (h : Always step P s es)
    (hPQ : ∀ s, P s → Q s) : Always step Q s es := by
  induction es generalizing s with
  | nil => exact hPQ s h
  | cons e es ih => exact ⟨hPQ s h.1, fun s' hs' => ih (h.2 s' hs')⟩

/-- A run can be checked state by state. -/
instance Always.decidable [DecidablePred P] : ∀ s es, Decidable (Always step P s es)
  | s, [] => inferInstanceAs (Decidable (P s))
  | s, e :: es =>
    match h : step s e with
    | none => decidable_of_iff (P s) (by simp [Always, h])
    | some t =>
      have := Always.decidable t es
      decidable_of_iff (P s ∧ Always step P t es) (by simp [Always, h])

instance Guarded.decidable [∀ s e, Decidable (G s e)] : ∀ s es, Decidable (Guarded step G s es)
  | _, [] => isTrue trivial
  | s, e :: es =>
    match h : step s e with
    | none => isTrue (by simp [Guarded, h])
    | some t =>
      have := Guarded.decidable t es
      decidable_of_iff (G s e ∧ Guarded step G t es) (by simp [Guarded, h])

/-- A guard that each event of the run meets in every state. -/
theorem Guarded.of_forall {s : S} {es : List E} (h : ∀ e ∈ es, ∀ s, G s e) :
    Guarded step G s es := by
  induction es generalizing s with
  | nil => trivial
  | cons e es ih =>
    intro s' _
    exact ⟨h e List.mem_cons_self s, ih fun e' he' => h e' (List.mem_cons_of_mem _ he')⟩

theorem Guarded.and {G' : S → E → Prop} {s : S} {es : List E} (h : Guarded step G s es)
    (h' : Guarded step G' s es) : Guarded step (fun s e => G s e ∧ G' s e) s es := by
  induction es generalizing s with
  | nil => trivial
  | cons e es ih =>
    intro s' hs'
    obtain ⟨hg, hrest⟩ := h s' hs'
    obtain ⟨hg', hrest'⟩ := h' s' hs'
    exact ⟨⟨hg, hg'⟩, ih hrest hrest'⟩

/-- A run without guards is guarded. -/
theorem guarded_true (s : S) (es : List E) : Guarded step (fun _ _ => True) s es :=
  Guarded.of_forall fun _ _ _ => trivial

/-- **The invariant rule.** -/
theorem Always.of_guarded (keep : ∀ s e s', I s → G s e → step s e = some s' → I s')
    (safe : ∀ s, I s → P s) {s : S} {es : List E} (hs : I s) (h : Guarded step G s es) :
    Always step P s es := by
  induction es generalizing s with
  | nil => exact safe s hs
  | cons e es ih =>
    refine ⟨safe s hs, ?_⟩
    intro s' hs'
    obtain ⟨hg, hrest⟩ := h s' hs'
    exact ih (keep s e s' hs hg hs') hrest

/-- The invariant rule for a property of the events. -/
theorem Guarded.of_guarded {G' : S → E → Prop}
    (keep : ∀ s e s', I s → G s e → step s e = some s' → I s') (safe : ∀ s e, I s → G' s e) {s : S}
    {es : List E} (hs : I s) (h : Guarded step G s es) : Guarded step G' s es := by
  induction es generalizing s with
  | nil => trivial
  | cons e es ih =>
    intro s' hs'
    obtain ⟨hg, hrest⟩ := h s' hs'
    exact ⟨safe s e hs, ih (keep s e s' hs hg hs') hrest⟩

/-- **The rule of equal guards**: in a run within the assumption `K`, two guards
that an invariant makes equivalent at each event are equivalent. -/
theorem Guarded.congr {K G' : S → E → Prop}
    (keep : ∀ s e s', I s → K s e → step s e = some s' → I s')
    (same : ∀ s e s', I s → K s e → step s e = some s' → (G s e ↔ G' s e)) {s : S} {es : List E}
    (hs : I s) (hK : Guarded step K s es) : Guarded step G s es ↔ Guarded step G' s es := by
  induction es generalizing s with
  | nil => exact Iff.rfl
  | cons e es ih =>
    refine forall_congr' fun s' => forall_congr' fun hs' => ?_
    obtain ⟨hk, hK'⟩ := hK s' hs'
    exact and_congr (same s e s' hs hk hs') (ih (keep s e s' hs hk hs') hK')

/-- An assumption on the states of a run is one on the states before and after
each of its events. -/
theorem Always.guarded {s : S} {es : List E} (h : Always step P s es) :
    Guarded step (fun s e => P s ∧ ∀ s', step s e = some s' → P s') s es := by
  induction es generalizing s with
  | nil => trivial
  | cons e es ih =>
    intro s' hs'
    exact ⟨⟨h.1, fun t ht => (h.2 t ht).head⟩, ih (h.2 s' hs')⟩

/-- **The sharp guard rule**: in a run within the assumption `K`, an event
outside its guard breaks `P`. -/
theorem always_iff_guarded {K : S → E → Prop}
    (keep : ∀ s e s', I s → K s e → G s e → step s e = some s' → I s')
    (safe : ∀ s, I s → P s)
    (sharp : ∀ s e s', I s → K s e → step s e = some s' → P s' → G s e) {s : S} {es : List E}
    (hs : I s) (hK : Guarded step K s es) : Always step P s es ↔ Guarded step G s es := by
  induction es generalizing s with
  | nil => exact ⟨fun _ => trivial, fun _ => safe s hs⟩
  | cons e es ih =>
    constructor
    · rintro ⟨-, hrest⟩ s' hs'
      obtain ⟨hk, hK'⟩ := hK s' hs'
      have hg := sharp s e s' hs hk hs' (hrest s' hs').head
      exact ⟨hg, (ih (keep s e s' hs hk hg hs') hK').mp (hrest s' hs')⟩
    · intro hG
      refine ⟨safe s hs, fun s' hs' => ?_⟩
      obtain ⟨hk, hK'⟩ := hK s' hs'
      obtain ⟨hg, hrest⟩ := hG s' hs'
      exact (ih (keep s e s' hs hk hg hs') hK').mpr hrest

/-- The last state of a run is one of its states. -/
theorem Always.last {s s' : S} {es : List E} (h : Always step P s es)
    (hrun : runEvents step s es = some s') : P s' := by
  induction es generalizing s with
  | nil =>
    obtain rfl := Option.some.inj hrun
    exact h
  | cons e es ih =>
    obtain ⟨t, ht, hrest⟩ := Option.bind_eq_some_iff.mp hrun
    exact ih (h.2 t ht) hrest

end Xkim
