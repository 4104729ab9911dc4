/-
MsgHandler/LimitQueue.lean

The queue that refuses messages when it is full: `MsMessageBlockQueueLimit`
(`framework/ms/ms_message_block_queue_limit.cpp`).

What it is for is said by `LimitSpec`: from 10000 messages on a put is refused,
and then every put until one finds at most 5000.  The code has the two modes as
cases of a `switch`, and no case ends with a `break`:

    case NORMAL: ...
    case BLOCK: ...
    default: abort();

So a put in the normal mode goes on with the case of the other mode, which may
link the message a second time, and every put ends in `abort()`.  What the two
versions of `get` do is right.
-/
import MsgHandler.Heap
import MsgHandler.Run

namespace Xkim

/-! ### What it is for -/

/-- The messages in the queue, and whether it is blocked. -/
structure LimitSpec where
  items : List Addr
  blocked : Bool
  deriving DecidableEq, Repr

namespace LimitSpec

/-- Whether a put is refused, and the mode after it. -/
def refuses (s : LimitSpec) : Bool :=
  if s.blocked then decide (5000 < s.items.length) else decide (10000 ≤ s.items.length)

/-- A put: what it returns, and the queue after it. -/
def put (s : LimitSpec) (v : Addr) : ℤ × LimitSpec :=
  if s.refuses then (-1, { s with blocked := true }) else (0, ⟨s.items ++ [v], false⟩)

/-- The first messages are taken out. -/
def take (s : LimitSpec) (n : ℕ) : LimitSpec := { s with items := s.items.drop n }

end LimitSpec

/-! ### The code -/

/-- `ms::MsMessageBlockQueueLimit`; its mutex makes each member atomic. -/
structure MsMessageBlockQueueLimit where
  links : Links Addr
  listSize : ℤ
  blockThreshold : ℤ
  unblockThreshold : ℤ
  flag : ℤ

namespace MsMessageBlockQueueLimit

/-- `NORMAL` and `BLOCK`. -/
def NORMAL : ℤ := 1

@[inherit_doc NORMAL] def BLOCK : ℤ := 2

/-- A new queue. -/
def new : MsMessageBlockQueueLimit := ⟨Links.empty, 0, 10000, 5000, NORMAL⟩

/-- `_put(v)`. -/
def link (Q : MsMessageBlockQueueLimit) (v : Addr) (H : Heap) : MsMessageBlockQueueLimit × Heap :=
  let r := Q.links.attach H.next v v
  ({ Q with links := r.2, listSize := Q.listSize + 1 }, { H with next := r.1 })

/-- What `put` has done so far: its `ret`, the queue and the memory. -/
abbrev Putting := ℤ × MsMessageBlockQueueLimit × Heap

/-- `default`: the process aborts. -/
def caseDefault (s : Putting) : Except Putting Putting := .error s

/-- `case BLOCK`, and on to the next case. -/
def caseBlock (v : Addr) (s : Putting) : Except Putting Putting :=
  let Q := s.2.1
  if Q.listSize ≤ Q.unblockThreshold then
    caseDefault (0, ({ Q with flag := NORMAL } : MsMessageBlockQueueLimit).link v s.2.2)
  else caseDefault (-1, s.2)

/-- `case NORMAL`, and on to the next case. -/
def caseNormal (v : Addr) (s : Putting) : Except Putting Putting :=
  let Q := s.2.1
  if Q.listSize < Q.blockThreshold then caseBlock v (0, Q.link v s.2.2)
  else caseBlock v (-1, { Q with flag := BLOCK }, s.2.2)

/-- `put(v)`; an error is where the process aborts. -/
def put (Q : MsMessageBlockQueueLimit) (v : Addr) (H : Heap) : Except Putting Putting :=
  let s := (0, Q, H.setNext v none)
  if Q.flag = NORMAL then caseNormal v s
  else if Q.flag = BLOCK then caseBlock v s
  else caseDefault s

/-- `get()`: take everything.  It blocks on an empty queue. -/
def get (Q : MsMessageBlockQueueLimit) : Option (Option Addr × MsMessageBlockQueueLimit) :=
  if Q.listSize = 0 then none
  else some (Q.links.head, { Q with links := Links.empty, listSize := 0 })

/-- `while (--count) item = item->_next;`, with `n` turns. -/
def advance (next : Addr → Option Addr) : ℕ → Addr → Option Addr
  | 0, item => some item
  | n + 1, item => (next item).bind (advance next n)

/-- `get(count)`: take the first messages.  The outer `none` is waiting, the
inner one a NULL that is followed. -/
def getCount (Q : MsMessageBlockQueueLimit) (count : ℤ) (H : Heap) :
    Option (Option (Option Addr × MsMessageBlockQueueLimit × Heap)) :=
  if Q.listSize = 0 then none
  else if count < Q.listSize then
    some (Q.links.head.bind fun first => (advance H.next (count - 1).toNat first).map fun item =>
      (some first,
        { Q with links := ⟨H.next item, Q.links.tail⟩, listSize := Q.listSize - count },
        H.setNext item none))
  else some (some (Q.links.head, { Q with links := Links.empty, listSize := 0 }, H))

/-! ### Single calls -/

variable {Q : MsMessageBlockQueueLimit} {H : Heap} {l : List Addr}

/-- **Every put aborts**, in every state. -/
theorem put_aborts (Q : MsMessageBlockQueueLimit) (v : Addr) (H : Heap) :
    ∃ s, Q.put v H = .error s := by
  have hblock : ∀ s, ∃ s', caseBlock v s = .error s' := by
    intro s
    unfold caseBlock
    dsimp only
    split_ifs
    · exact ⟨_, rfl⟩
    · exact ⟨_, rfl⟩
  unfold put caseNormal
  dsimp only
  split_ifs
  · exact hblock _
  · exact hblock _
  · exact hblock _
  · exact ⟨_, rfl⟩

/-- The queue holds the messages `l`, in order. -/
structure Rep (Q : MsMessageBlockQueueLimit) (H : Heap) (l : List Addr) : Prop where
  links : Links.Rep H.next Q.links l
  size : Q.listSize = l.length

/-- **`get(count)`** for fewer messages than there are cuts the chain behind the
ones it takes. -/
theorem Rep.getCount_lt {count : ℕ} (h : Q.Rep H l) (hpos : 0 < count) (hlt : count < l.length) :
    ∃ links H', Q.getCount count H =
        some (some (l.head?, { Q with links := links, listSize := Q.listSize - count }, H')) ∧
      Links.Rep H'.next links (l.drop count) ∧ Chain H'.next l.head? (l.take count) := by
  obtain ⟨n, rfl⟩ : ∃ n, count = n + 1 := ⟨count - 1, by omega⟩
  obtain ⟨first, item, hhead, hitem, htaken, hleft⟩ :=
    h.links.cut (f := advance H.next) (fun _ => rfl) (fun _ _ => rfl) hlt
  have hfirst : l.head? = some first := h.links.head_eq.symm.trans hhead
  have hcount : ((n + 1 : ℕ) : ℤ) - 1 = n := by omega
  have hsize := h.size
  rw [getCount, if_neg (by omega), if_pos (by omega), hhead, Option.bind_some, hcount,
    Int.toNat_natCast, hitem, Option.map_some, hfirst]
  exact ⟨_, _, rfl, hleft, htaken⟩

theorem Rep.getCount_ge {count : ℤ} (h : Q.Rep H l) (hne : l ≠ []) (hge : (l.length : ℤ) ≤ count) :
    Q.getCount count H =
      some (some (l.head?, { Q with links := Links.empty, listSize := 0 }, H)) := by
  have hsize := h.size
  have hpos := List.length_pos_iff.mpr hne
  rw [getCount, if_neg (by omega), if_neg (by omega), h.links.head_eq]

end MsMessageBlockQueueLimit

/-! ### Runs -/

/-- A call on the queue. -/
inductive LimitCall
  | put (v : Addr)
  | get
  | getCount (n : ℤ)
  deriving DecidableEq, Repr

/-- The queue in memory and what should be in it; whether the process has gone;
what the last put returned and what was due; and what the last get returned and
the messages that were due. -/
structure LimitRun where
  queue : MsMessageBlockQueueLimit
  heap : Heap
  spec : LimitSpec
  aborted : Bool
  ret : ℤ
  due : ℤ
  taken : Option Addr
  given : List Addr

namespace LimitRun

open MsMessageBlockQueueLimit

/-- A new queue. -/
def new (H : Heap) : LimitRun :=
  ⟨MsMessageBlockQueueLimit.new, H, ⟨[], false⟩, false, 0, 0, none, []⟩

/-- One call that comes to its end.  A get on an empty queue waits, and nothing
happens in a process that has gone. -/
def step (s : LimitRun) (c : LimitCall) : Option LimitRun :=
  if s.aborted then none
  else match c with
    | .put v =>
      match s.queue.put v s.heap with
      | .error e => some { s with queue := e.2.1, heap := e.2.2, aborted := true }
      | .ok e =>
        let d := s.spec.put v
        some { s with queue := e.2.1, heap := e.2.2, spec := d.2, ret := e.1, due := d.1 }
    | .get =>
      s.queue.get.map fun r =>
        { s with
          queue := r.2, spec := s.spec.take s.spec.items.length, taken := r.1
          given := s.spec.items }
    | .getCount n =>
      (s.queue.getCount n s.heap).map fun r =>
        match r with
        | none => { s with aborted := true }
        | some r =>
          { s with
            queue := r.2.1, heap := r.2.2, spec := s.spec.take n.toNat, taken := r.1
            given := s.spec.items.take n.toNat }

/-- **The queue is as it should be**: no abort, the value returned by the last
put, the messages of the last get, and the contents, the size and the mode. -/
structure Sound (s : LimitRun) : Prop where
  running : s.aborted = false
  ret : s.ret = s.due
  taken : Chain s.heap.next s.taken s.given
  rep : s.queue.Rep s.heap s.spec.items
  flag : s.queue.flag = if s.spec.blocked then BLOCK else NORMAL
  thresholds : s.queue.blockThreshold = 10000 ∧ s.queue.unblockThreshold = 5000

variable {s s' : LimitRun}

theorem sound_new (H : Heap) : (new H).Sound :=
  ⟨rfl, rfl, rfl, ⟨Links.rep_empty, rfl⟩, rfl, rfl, rfl⟩

theorem Sound.get (h : s.Sound) (hstep : s.step .get = some s') : s'.Sound := by
  unfold step at hstep
  rw [if_neg (by rw [h.running]; decide)] at hstep
  obtain ⟨r, hr, rfl⟩ := Option.map_eq_some_iff.mp hstep
  unfold MsMessageBlockQueueLimit.get at hr
  split_ifs at hr
  obtain rfl := Option.some.inj hr
  refine ⟨h.running, h.ret, h.rep.links.1, ?_, h.flag, h.thresholds⟩
  show Rep _ _ (s.spec.items.drop s.spec.items.length)
  rw [List.drop_length]
  exact ⟨Links.rep_empty, rfl⟩

theorem Sound.getCount {n : ℤ} (h : s.Sound) (hn : 1 ≤ n)
    (hstep : s.step (.getCount n) = some s') : s'.Sound := by
  obtain ⟨count, rfl⟩ : ∃ count : ℕ, n = count := ⟨n.toNat, by omega⟩
  unfold step at hstep
  rw [if_neg (by rw [h.running]; decide)] at hstep
  obtain ⟨r, hr, rfl⟩ := Option.map_eq_some_iff.mp hstep
  rw [Int.toNat_natCast]
  by_cases hlt : count < s.spec.items.length
  · obtain ⟨links, H', hcall, hlinks, htaken⟩ := h.rep.getCount_lt (by omega) hlt
    obtain rfl := Option.some.inj (hcall.symm.trans hr)
    refine ⟨h.running, h.ret, htaken, ⟨hlinks, ?_⟩, h.flag, h.thresholds⟩
    have hsize := h.rep.size
    show s.queue.listSize - count = (s.spec.items.drop count).length
    rw [hsize, List.length_drop]
    omega
  · -- all of them, or the call would wait
    have hne : s.spec.items ≠ [] := by
      intro hnil
      have hsize := h.rep.size
      rw [hnil, List.length_nil, Nat.cast_zero] at hsize
      rw [MsMessageBlockQueueLimit.getCount, if_pos hsize] at hr
      cases hr
    have hall : s.spec.items.length ≤ count := by omega
    obtain rfl := Option.some.inj ((h.rep.getCount_ge hne (Int.ofNat_le.mpr hall)).symm.trans hr)
    refine ⟨h.running, h.ret, ?_, ?_, h.flag, h.thresholds⟩
    · show Chain s.heap.next s.spec.items.head? (s.spec.items.take count)
      rw [List.take_of_length_le hall, ← h.rep.links.head_eq]
      exact h.rep.links.1
    · show Rep _ _ (s.spec.items.drop count)
      rw [List.drop_eq_nil_of_le hall]
      exact ⟨Links.rep_empty, rfl⟩

/-- After a put the process has gone. -/
theorem not_sound_put {v : Addr} (h : s.Sound) (hstep : s.step (.put v) = some s') :
    ¬ s'.Sound := by
  obtain ⟨e, he⟩ := s.queue.put_aborts v s.heap
  unfold step at hstep
  rw [if_neg (by rw [h.running]; decide)] at hstep
  simp only [he] at hstep
  obtain rfl := Option.some.inj hstep
  intro hsound
  cases hsound.running

/-- **When the queue is as it should be**: as long as nothing is put. -/
theorem always_sound_iff (s : LimitRun) (hs : s.Sound) (calls : List LimitCall)
    (hcounts : ∀ n, .getCount n ∈ calls → 1 ≤ n) :
    Always LimitRun.step Sound s calls ↔
      Guarded LimitRun.step (fun _ c => ∀ v, c ≠ .put v) s calls := by
  refine always_iff_guarded (I := Sound) (K := fun _ c => ∀ n, c = .getCount n → 1 ≤ n) ?_
    (fun _ h => h) ?_ hs (Guarded.of_forall fun c hc _ n hn => hcounts n (hn ▸ hc))
  · intro s c s' h hK hG hstep
    cases c with
    | put v => exact absurd rfl (hG v)
    | get => exact h.get hstep
    | getCount n => exact h.getCount (hK n rfl) hstep
  · rintro s c s' h - hstep hsound v rfl
    exact not_sound_put h hstep hsound

/-- Two messages in the queue are taken out one after the other. -/
theorem always_sound_iff_two :
    Always LimitRun.step Sound
      { new { Heap.empty with next := fun v => if v = 0 then some 1 else none } with
        queue := { MsMessageBlockQueueLimit.new with links := ⟨some 0, some 1⟩, listSize := 2 }
        spec := ⟨[0, 1], false⟩ }
      [.getCount 1, .get] := by
  refine (always_sound_iff _ ?_ [.getCount 1, .get] (by simp)).mpr ?_
  · exact ⟨rfl, rfl, rfl, ⟨⟨⟨rfl, rfl, rfl⟩, rfl⟩, rfl⟩, rfl, rfl, rfl⟩
  · rintro _ ⟨⟩
    refine ⟨fun v => LimitCall.noConfusion, ?_⟩
    rintro _ ⟨⟩
    exact ⟨fun v => LimitCall.noConfusion, trivial⟩

/-- The first put on a new queue: the message is linked twice, behind itself, and
the process aborts. -/
theorem always_sound_put :
    ((new Heap.empty).step (.put 0)).map
      (fun s => (s.aborted, s.queue.listSize, s.heap.next 0)) = some (true, 2, some 0) := by
  decide

end LimitRun

end Xkim
