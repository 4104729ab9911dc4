/-
MsgHandler/Extraction.lean

When the pipelined loop of `readSocket` terminates
(`framework/io/io_connection.cpp`).

The step of the loop is `ntohl(word) + 4` as an `int`, for a length word that
came over the network.  A word below `2 ^ 31 - 4` makes a step of at least
four bytes.  The words from there to `2 ^ 32 - 4` make a step that is negative
or zero, and the last three words a step of one to three bytes.

The number of iterations is at most `_rpos / 4`, with steps forward only, if
and only if every word that the loop comes to is of the first kind, or of the
last kind and early enough (`deliver_progress_iff`).  A short step is only
followed by steps that are not longer, because the next word then begins with
the end of the one before; so words of the first kind are all in front.
-/
import MsgHandler.Teardown

namespace Xkim

variable {P σ : Type} {h : IoHooks P σ} {m : Ctx P σ} {mem : List UInt8} {rpos : ℕ}

/-! ### The length words that the loop comes to -/

/-- The `i`-th length word that the loop reads, and its place, when all frames
before it are accepted. -/
def lengthWord? (mem : List UInt8) (rpos : ℕ) : ℕ → Option (ℤ × ℕ)
  | 0 => (wordAt? mem 0).map fun w => (0, w)
  | i + 1 =>
    (lengthWord? mem rpos i).bind fun x =>
      let size := toInt32 (x.2 + 4)
      if size ≤ rpos - x.1 ∧ 4 ≤ rpos - x.1 - size then
        (wordAt? mem (x.1 + size)).map fun w => (x.1 + size, w)
      else none

theorem lengthWord?_succ {i w w' : ℕ} {b : ℤ} (hword : lengthWord? mem rpos i = some (b, w))
    (hsize : toInt32 (w + 4) ≤ rpos - b) (hnext : 4 ≤ rpos - b - toInt32 (w + 4))
    (hw' : wordAt? mem (b + toInt32 (w + 4)) = some w') :
    lengthWord? mem rpos (i + 1) = some (b + toInt32 (w + 4), w') := by
  rw [lengthWord?, hword, Option.bind_some]
  dsimp only
  rw [if_pos ⟨hsize, hnext⟩, hw', Option.map_some]

/-- The words are steady: each announces a frame that is not negative as an
`int`, or one of one to three bytes behind few frames. -/
def Steady (mem : List UInt8) (rpos : ℕ) : Prop :=
  ∀ i b w, lengthWord? mem rpos i = some (b, w) →
    w + 4 < 2 ^ 31 ∨ (2 ^ 32 < w + 4 ∧ 4 * (i + 1) ≤ rpos)

theorem wordAt?_inside {b : ℤ} (hb : 0 ≤ b) (hroom : b + 4 ≤ mem.length) :
    wordAt? mem b = some (ntohl (mem.drop b.toNat)) :=
  if_pos ⟨hb, hroom⟩

/-- The size that a word announces, as an `int`. -/
theorem size_of_small {w : ℕ} (hw : w + 4 < 2 ^ 31) : toInt32 (w + 4) = w + 4 :=
  toInt32_eq_self (by omega) (by omega)

theorem size_of_wrapped {w : ℕ} (hlt : w < 2 ^ 32) (hw : 2 ^ 32 < w + 4) :
    toInt32 (w + 4) = w + 4 - 2 ^ 32 := by
  unfold toInt32
  rw [Int.bmod_eq_emod]
  split <;> omega

theorem size_nonpos {w : ℕ} (hlow : 2 ^ 31 ≤ w + 4) (hhigh : w + 4 ≤ 2 ^ 32) :
    toInt32 (w + 4) ≤ 0 := by
  unfold toInt32
  rw [Int.bmod_eq_emod]
  split <;> omega

/-- A step forward is a long one or a short one, -/
theorem small_or_wrapped {w : ℕ} (hpos : 0 < toInt32 (w + 4)) :
    w + 4 < 2 ^ 31 ∨ 2 ^ 32 < w + 4 := by
  by_contra hnot
  have := size_nonpos (w := w) (by omega) (by omega)
  omega

/-- and one of at least four bytes is a long one. -/
theorem small_of_size {w : ℕ} (hlt : w < 2 ^ 32) (hfour : 4 ≤ toInt32 (w + 4)) :
    w + 4 < 2 ^ 31 := by
  rcases small_or_wrapped (w := w) (by omega) with hsmall | hwrapped
  · exact hsmall
  · rw [size_of_wrapped hlt hwrapped] at hfour
    omega

/-- **A short step** ends inside the word, so that the next word begins with its
last bytes. -/
theorem ntohl_drop_of_wrapped {l : List UInt8} {s : ℕ} (hw : ntohl l + 4 = 2 ^ 32 + s)
    (hpos : 0 < s) (hlen : s + 4 ≤ l.length) : 2 ^ 31 ≤ ntohl (l.drop s) := by
  match l, hlen with
  | a :: b :: c :: d :: l, hlen =>
    have ha := a.toNat_lt
    have hb := b.toNat_lt
    have hc := c.toNat_lt
    have hd := d.toNat_lt
    rw [ntohl] at hw
    simp only [List.length_cons] at hlen
    have hs : s = 1 ∨ s = 2 ∨ s = 3 := by omega
    obtain rfl | rfl | rfl := hs
    · match l, hlen with
      | e :: l, _ =>
        show 2 ^ 31 ≤ ntohl (b :: c :: d :: e :: l)
        rw [ntohl]
        omega
    · match l, hlen with
      | e :: f :: l, _ =>
        show 2 ^ 31 ≤ ntohl (c :: d :: e :: f :: l)
        rw [ntohl]
        omega
    · match l, hlen with
      | e :: f :: g :: l, _ =>
        show 2 ^ 31 ≤ ntohl (d :: e :: f :: g :: l)
        rw [ntohl]
        omega

/-! ### The iterations -/

/-- The loop, at the local variables `b`, `len` and `frame_size`, makes an
iteration for each of `sizes` and exits. -/
inductive Exits (mem : List UInt8) : ℤ → ℤ → ℤ → List ℤ → Prop
  | test {b len size : ℤ} (hshort : len < size) : Exits mem b len size []
  | last {b len size : ℤ} (hsize : size ≤ len) (hrest : len - size < 4) :
      Exits mem b len size [size]
  | next {b len size : ℤ} {w : ℕ} {sizes : List ℤ} (hsize : size ≤ len) (hrest : 4 ≤ len - size)
      (hw : wordAt? mem (b + size) = some w)
      (hexits : Exits mem (b + size) (len - size) (toInt32 (w + 4)) sizes) :
      Exits mem b len size (size :: sizes)

/-- The calls of iterations that advance by `sizes`, from `b` on. -/
def calls (mem : List UInt8) (rpos : ℕ) : ℤ → List ℤ → List Act
  | _, [] => []
  | b, size :: sizes => .frame b size rpos (slice mem b size) :: calls mem rpos (b + size) sizes

theorem calls_injective {b : ℤ} {sizes sizes' : List ℤ}
    (heq : calls mem rpos b sizes = calls mem rpos b sizes') : sizes = sizes' := by
  induction sizes generalizing b sizes' with
  | nil =>
    cases sizes' with
    | nil => rfl
    | cons size' sizes' => cases heq
  | cons size sizes ih =>
    cases sizes' with
    | nil => cases heq
    | cons size' sizes' =>
      obtain ⟨hframe, hrest⟩ := List.cons.inj heq
      obtain ⟨-, rfl, -, -⟩ := Act.frame.inj hframe
      rw [ih hrest]

/-- `whenReceivedFrame` returns 0 on every call of the loop; `J i` is what is
known of the state behind the hooks before the `i`-th call. -/
structure ReturnsZero (h : IoHooks P σ) (mem : List UInt8) (rpos : ℕ) (J : ℕ → σ → Prop) :
    Prop where
  call : ∀ {i b w s}, J i s → lengthWord? mem rpos i = some (b, w) →
    toInt32 (w + 4) ≤ rpos - b →
      ∃ s', h.whenReceivedFrame mem b (toInt32 (w + 4)) s = some (0, s') ∧ J (i + 1) s'

/-- After a call that has been answered. -/
def called (b size : ℤ) (s : σ) (m : Ctx P σ) : Ctx P σ :=
  { m.log (.frame b size m.conn.rpos (slice m.conn.rbuf b size)) with app := s }

/-- **An iteration** whose frame is accepted. -/
theorem pipelined_iteration {b len size : ℤ} {s : σ} (hsize : size ≤ len)
    (hcall : h.whenReceivedFrame m.conn.rbuf b size m.app = some (0, s)) (fuel : ℕ) :
    pipelined h (fuel + 1) b len size m =
      if 4 ≤ len - size then
        match wordAt? m.conn.rbuf (b + size) with
        | none => (called b size s m).halt
        | some w =>
          pipelined h fuel (b + size) (len - size) (toInt32 (w + 4)) (called b size s m)
      else keepRest (b + size) (len - size) (called b size s m) := by
  have hframe : callFrame h b size m = (some 0, called b size s m) := by
    unfold callFrame
    simp only [Ctx.log, hcall]
    rfl
  rw [pipelined, if_pos hsize, hframe]
  rfl

theorem pipelined_test {b len size : ℤ} (hshort : len < size) (fuel : ℕ) :
    pipelined h (fuel + 1) b len size m = keepRest b len m := by
  rw [pipelined, if_neg (not_le.mpr hshort)]

variable {J : ℕ → σ → Prop} {i w fuel : ℕ} {b len : ℤ} {sizes : List ℤ}

/-- What the loop knows before it tests its condition for the `i`-th time. -/
structure AtTest (mem : List UInt8) (rpos : ℕ) (J : ℕ → σ → Prop) (i : ℕ) (b len : ℤ) (w : ℕ)
    (m : Ctx P σ) : Prop where
  word : lengthWord? mem rpos i = some (b, w)
  left : len = rpos - b
  rbuf : m.conn.rbuf = mem
  known : J i m.app

theorem AtTest.next (hat : AtTest mem rpos J i b len w m) (hsize : toInt32 (w + 4) ≤ len)
    (hrest : 4 ≤ len - toInt32 (w + 4)) {w' : ℕ}
    (hw' : wordAt? mem (b + toInt32 (w + 4)) = some w') {s : σ} (hs : J (i + 1) s) :
    AtTest mem rpos J (i + 1) (b + toInt32 (w + 4)) (len - toInt32 (w + 4)) w'
      (called b (toInt32 (w + 4)) s m) := by
  obtain ⟨hword, hleft, hrbuf, -⟩ := hat
  rw [hleft] at hsize hrest
  refine ⟨lengthWord?_succ hword hsize hrest hw', ?_, hrbuf, hs⟩
  rw [hleft]
  ring

/-- **Iterations that exit**, run by the code. -/
theorem AtTest.run (hzero : ReturnsZero h mem rpos J)
    (hat : AtTest mem rpos J i b len w m) (hexits : Exits mem b len (toInt32 (w + 4)) sizes)
    (hfuel : sizes.length < fuel) :
    ∃ m', pipelined h fuel b len (toInt32 (w + 4)) m =
        keepRest (b + sizes.sum) (len - sizes.sum) m' ∧
      m'.conn = m.conn ∧ m'.halted = m.halted ∧
      m'.trace = m.trace ++ calls mem m.conn.rpos b sizes := by
  obtain ⟨fuel, rfl⟩ := Nat.exists_eq_add_one_of_ne_zero (Nat.ne_zero_of_lt hfuel)
  generalize hw : toInt32 (w + 4) = size at hexits
  induction hexits generalizing fuel i w m with
  | @test b len size hshort =>
    refine ⟨m, ?_, rfl, rfl, ?_⟩
    · rw [pipelined_test hshort, List.sum_nil, add_zero, sub_zero]
    · exact (List.append_nil _).symm
  | @last b len size hsize hrest =>
    subst hw
    obtain ⟨s, hcall, -⟩ := hzero.call hat.known hat.word (hat.left ▸ hsize)
    rw [← hat.rbuf] at hcall
    refine ⟨called b (toInt32 (w + 4)) s m, ?_, rfl, rfl, ?_⟩
    · rw [pipelined_iteration hsize hcall, if_neg (not_le.mpr hrest), List.sum_singleton]
    · rw [calls, calls, ← hat.rbuf]
      rfl
  | @next b len size w' sizes hsize hrest hw' _ ih =>
    subst hw
    obtain ⟨s, hcall, hs⟩ := hzero.call hat.known hat.word (hat.left ▸ hsize)
    obtain ⟨fuel, rfl⟩ := Nat.exists_eq_add_one_of_ne_zero
      (Nat.ne_zero_of_lt (Nat.lt_of_succ_lt_succ hfuel))
    obtain ⟨m', heq, hconn, hhalted, htrace⟩ :=
      ih (hat.next hsize hrest hw' hs) fuel (Nat.lt_of_succ_lt_succ hfuel) rfl
    rw [← hat.rbuf] at hcall hw'
    refine ⟨m', ?_, hconn, hhalted, ?_⟩
    · rw [pipelined_iteration hsize hcall, if_pos hrest, hw']
      dsimp only
      rw [heq, List.sum_cons, add_assoc, sub_sub]
    · rw [htrace, calls, ← hat.rbuf]
      exact List.append_assoc _ _ _

/-- A loop that returns has exited. -/
theorem AtTest.exits (hzero : ReturnsZero h mem rpos J) (hat : AtTest mem rpos J i b len w m)
    (hreturns : (pipelined h fuel b len (toInt32 (w + 4)) m).halted = false) :
    ∃ sizes, Exits mem b len (toInt32 (w + 4)) sizes := by
  induction fuel generalizing i b len w m with
  | zero => cases hreturns
  | succ fuel ih =>
    by_cases hsize : toInt32 (w + 4) ≤ len
    · obtain ⟨s, hcall, hs⟩ := hzero.call hat.known hat.word (hat.left ▸ hsize)
      rw [← hat.rbuf] at hcall
      rw [pipelined_iteration hsize hcall] at hreturns
      by_cases hrest : 4 ≤ len - toInt32 (w + 4)
      · rw [if_pos hrest, hat.rbuf] at hreturns
        rcases hw' : wordAt? mem (b + toInt32 (w + 4)) with - | w'
        · rw [hw'] at hreturns
          cases hreturns
        · rw [hw'] at hreturns
          obtain ⟨sizes, hexits⟩ := ih (hat.next hsize hrest hw' hs) hreturns
          exact ⟨_, .next hsize hrest hw' hexits⟩
      · exact ⟨_, .last hsize (not_le.mp hrest)⟩
    · exact ⟨[], .test (not_le.mp hsize)⟩

/-! ### Steady words -/

theorem wordAt?_of_lengthWord? (hword : lengthWord? mem rpos i = some (b, w)) :
    wordAt? mem b = some w := by
  cases i with
  | zero =>
    rw [lengthWord?, Option.map_eq_some_iff] at hword
    obtain ⟨w', hw', heq⟩ := hword
    obtain ⟨rfl, rfl⟩ := Prod.mk.inj heq
    exact hw'
  | succ i =>
    rw [lengthWord?, Option.bind_eq_some_iff] at hword
    obtain ⟨⟨b', w'⟩, -, hnext⟩ := hword
    dsimp only at hnext
    split_ifs at hnext
    obtain ⟨w'', hw'', heq⟩ := Option.map_eq_some_iff.mp hnext
    obtain ⟨rfl, rfl⟩ := Prod.mk.inj heq
    exact hw''

/-- Long steps are all in front: the loop has advanced by four bytes or more for
each iteration, or it stands at a word that is not small. -/
def Paced (i : ℕ) (b : ℤ) (w : ℕ) : Prop := 4 * i ≤ b ∨ 2 ^ 31 ≤ w + 4

/-- **A step** at a steady word goes forward and keeps the pace. -/
theorem Steady.step (hsteady : Steady mem rpos) (hword : lengthWord? mem rpos i = some (b, w))
    (hpaced : Paced i b w) (hsize : toInt32 (w + 4) ≤ rpos - b) :
    0 < toInt32 (w + 4) ∧ 4 * (i + 1) ≤ rpos ∧
      ∀ w', wordAt? mem (b + toInt32 (w + 4)) = some w' →
        Paced (i + 1) (b + toInt32 (w + 4)) w' := by
  obtain ⟨hb, hroom, hw⟩ := wordAt?_eq_some (wordAt?_of_lengthWord? hword)
  rcases hsteady i b w hword with hsmall | ⟨hwrapped, hearly⟩
  · -- a long step: so were all before
    have hpace : 4 * i ≤ b := hpaced.resolve_right (by omega)
    rw [size_of_small hsmall] at hsize ⊢
    refine ⟨by omega, by omega, fun w' _ => Or.inl ?_⟩
    push_cast
    omega
  · -- a short step: the next one is not longer
    have hlt : w < 2 ^ 32 := hw ▸ ntohl_lt _
    rw [size_of_wrapped hlt hwrapped]
    refine ⟨by omega, hearly, fun w' hw' => Or.inr ?_⟩
    obtain ⟨-, hroom', rfl⟩ := wordAt?_eq_some hw'
    have hdrop : mem.drop (b + ((w : ℤ) + 4 - 2 ^ 32)).toNat =
        (mem.drop b.toNat).drop (w + 4 - 2 ^ 32) := by
      have hplace : (b + ((w : ℤ) + 4 - 2 ^ 32)).toNat = b.toNat + (w + 4 - 2 ^ 32) := by omega
      rw [hplace, List.drop_drop]
    have hhigh := ntohl_drop_of_wrapped (l := mem.drop b.toNat) (s := w + 4 - 2 ^ 32)
      (by omega) (by omega) (by rw [List.length_drop]; omega)
    rw [hdrop]
    omega

/-- **Steady words** let the loop exit, after at most a quarter as many
iterations as there are bytes. -/
theorem Steady.exits (hsteady : Steady mem rpos) (hroom : rpos ≤ mem.length) (n : ℕ)
    (hword : lengthWord? mem rpos i = some (b, w)) (hpaced : Paced i b w)
    (hbound : rpos - b ≤ n) :
    ∃ sizes, Exits mem b (rpos - b) (toInt32 (w + 4)) sizes ∧ (∀ s ∈ sizes, 0 < s) ∧
      (sizes ≠ [] → 4 * (i + sizes.length) ≤ rpos) := by
  induction n generalizing i b w with
  | zero =>
    by_cases hsize : toInt32 (w + 4) ≤ rpos - b
    · have := (hsteady.step hword hpaced hsize).1
      omega
    · exact ⟨[], .test (not_le.mp hsize), nofun, fun hne => absurd rfl hne⟩
  | succ n ih =>
    by_cases hsize : toInt32 (w + 4) ≤ rpos - b
    · obtain ⟨hpos, hearly, hnext⟩ := hsteady.step hword hpaced hsize
      by_cases hrest : 4 ≤ rpos - b - toInt32 (w + 4)
      · have hb := (wordAt?_eq_some (wordAt?_of_lengthWord? hword)).1
        have hw' : wordAt? mem (b + toInt32 (w + 4)) = some _ :=
          wordAt?_inside (by omega) (by omega)
        obtain ⟨sizes, hexits, hall, hcount⟩ :=
          ih (lengthWord?_succ hword hsize hrest hw') (hnext _ hw') (by omega)
        rw [← sub_sub] at hexits
        refine ⟨_, .next hsize hrest hw' hexits, List.forall_mem_cons.mpr ⟨hpos, hall⟩, ?_⟩
        intro _
        rw [List.length_cons]
        cases sizes with
        | nil => exact hearly
        | cons s sizes =>
          have := hcount (List.cons_ne_nil s sizes)
          omega
      · refine ⟨_, .last hsize (not_le.mp hrest), List.forall_mem_singleton.mpr hpos, ?_⟩
        exact fun _ => hearly
    · exact ⟨[], .test (not_le.mp hsize), nofun, fun hne => absurd rfl hne⟩

/-- Behind the last word there is none. -/
theorem lengthWord?_eq_none (hnone : lengthWord? mem rpos i = none) (k : ℕ) :
    lengthWord? mem rpos (i + k) = none := by
  induction k with
  | zero => exact hnone
  | succ k ih => rw [← add_assoc, lengthWord?, ih, Option.bind_none]

theorem lengthWord?_stop (hword : lengthWord? mem rpos i = some (b, w))
    (hstop : ¬ (toInt32 (w + 4) ≤ rpos - b ∧ 4 ≤ rpos - b - toInt32 (w + 4))) (k : ℕ) :
    lengthWord? mem rpos (i + 1 + k) = none := by
  refine lengthWord?_eq_none ?_ k
  rw [lengthWord?, hword, Option.bind_some]
  exact if_neg hstop

/-- **The words of a loop that exits** after few steps forward are steady. -/
theorem Exits.steady (hexits : Exits mem b len (toInt32 (w + 4)) sizes)
    (hword : lengthWord? mem rpos i = some (b, w)) (hlen : len = rpos - b) (hfour : 4 ≤ len)
    (hpos : ∀ s ∈ sizes, 0 < s) (hcount : sizes ≠ [] → 4 * (i + sizes.length) ≤ rpos) (k : ℕ)
    {b' : ℤ} {w' : ℕ} (hword' : lengthWord? mem rpos (i + k) = some (b', w')) :
    w' + 4 < 2 ^ 31 ∨ (2 ^ 32 < w' + 4 ∧ 4 * (i + k + 1) ≤ rpos) := by
  have hlt : w < 2 ^ 32 := (wordAt?_eq_some (wordAt?_of_lengthWord? hword)).2.2 ▸ ntohl_lt _
  generalize hsizeEq : toInt32 (w + 4) = size at hexits
  induction hexits generalizing i w k with
  | @test b len size hshort =>
    subst hsizeEq
    cases k with
    | zero =>
      obtain ⟨rfl, rfl⟩ := Prod.mk.inj (Option.some.inj (hword.symm.trans hword'))
      exact Or.inl (small_of_size hlt (by omega))
    | succ k =>
      rw [← add_assoc, add_right_comm, lengthWord?_stop hword (by omega)] at hword'
      cases hword'
  | @last b len size hsize hrest =>
    subst hsizeEq
    cases k with
    | zero =>
      obtain ⟨rfl, rfl⟩ := Prod.mk.inj (Option.some.inj (hword.symm.trans hword'))
      have hfirst := small_or_wrapped (hpos _ List.mem_cons_self)
      exact hfirst.imp_right fun hwrapped => ⟨hwrapped, hcount (List.cons_ne_nil _ _)⟩
    | succ k =>
      rw [← add_assoc, add_right_comm, lengthWord?_stop hword (by omega)] at hword'
      cases hword'
  | @next b len size w₁ sizes hsize hrest hw₁ _ ih =>
    subst hsizeEq
    obtain ⟨hpos₀, hpos₁⟩ := List.forall_mem_cons.mp hpos
    have hcount₀ := hcount (List.cons_ne_nil _ _)
    rw [List.length_cons] at hcount₀
    cases k with
    | zero =>
      obtain ⟨rfl, rfl⟩ := Prod.mk.inj (Option.some.inj (hword.symm.trans hword'))
      exact (small_or_wrapped hpos₀).imp_right fun hwrapped => ⟨hwrapped, by omega⟩
    | succ k =>
      rw [← add_assoc, add_right_comm] at hword'
      have hword₁ := lengthWord?_succ hword (hlen ▸ hsize) (hlen ▸ hrest) hw₁
      have hlt₁ : w₁ < 2 ^ 32 := (wordAt?_eq_some hw₁).2.2 ▸ ntohl_lt _
      have hafter := ih hword₁ (by omega) hrest hpos₁ (fun _ => by omega) k hword' hlt₁ rfl
      rw [← add_assoc, add_right_comm i k 1]
      exact hafter

/-! ### Entering the loop -/

/-- The connection when `readSocket` enters the loop. -/
structure Entered (c : IoConnection P) : Prop where
  header : 4 ≤ c.rpos
  room : c.rpos ≤ c.rbuf.length
  size : c.frameSize = (ntohl c.rbuf + 4) % 2 ^ 32
  fits : c.frameSize ≤ FRAME_MAX_SIZE
  more : c.frameSize < c.rpos

theorem deliver_no_loop (hless : m.conn.rpos ≤ m.conn.frameSize)
    (hmax : m.conn.frameSize ≤ FRAME_MAX_SIZE) (fuel fuel' : ℕ) :
    deliver h fuel m = deliver h fuel' m := by
  have hnot : ¬ (m.conn.rpos : ℤ) > toInt32 m.conn.frameSize := by
    rw [toInt32_size hmax]
    omega
  unfold deliver
  rw [if_neg hnot, if_neg hnot]

/-- A frame that is waited for is completed without the loop. -/
theorem dataRecv_no_loop (hless : m.conn.rpos < m.conn.frameSize)
    (hmax : m.conn.frameSize ≤ FRAME_MAX_SIZE) (fuel fuel' : ℕ) :
    dataRecv h fuel m = dataRecv h fuel' m := by
  have hleft := toInt32_left hmax (hless.le.trans hmax)
  unfold dataRecv
  rw [hleft]
  dsimp only
  rcases hrec : recv ((m.conn.frameSize : ℤ) - m.conn.rpos).toNat m.script m with ⟨res, m₁⟩
  have hpost := recv_post_of_eq hrec
  cases res with
  | got bytes =>
    have hgot := (hpost.got bytes rfl).2.2
    have hfull : (store bytes m₁).conn.rpos ≤ (store bytes m₁).conn.frameSize := by
      show m₁.conn.rpos + bytes.length ≤ m₁.conn.frameSize
      rw [hpost.conn]
      omega
    have hfits : (store bytes m₁).conn.frameSize ≤ FRAME_MAX_SIZE := by
      show m₁.conn.frameSize ≤ FRAME_MAX_SIZE
      rw [hpost.conn]
      exact hmax
    rw [if_pos (by omega), if_pos (by omega)]
    exact deliver_no_loop hfull hfits fuel fuel'
  | eof | eagain | error => rw [if_pos (by omega), if_pos (by omega)]

/-- The connection that falls through to `SOCKET_DATA_RECV`. -/
def framed (m : Ctx P σ) : Ctx P σ :=
  { m with conn := { m.conn with
    frameSize := (ntohl m.conn.rbuf + 4) % 2 ^ 32
    rsockState := .dataRecv } }

/-- More than a frame has arrived. -/
theorem frameHeader_loop (hs : Sound m.conn) (hheader : 4 ≤ m.conn.rpos)
    (hmore : (ntohl m.conn.rbuf + 4) % 2 ^ 32 < m.conn.rpos) :
    Entered (framed m).conn ∧ ∀ fuel, frameHeader h fuel m = deliver h fuel (framed m) := by
  have hmax : (ntohl m.conn.rbuf + 4) % 2 ^ 32 ≤ FRAME_MAX_SIZE := hmore.le.trans hs.rpos
  refine ⟨⟨hheader, hs.rpos.trans_eq hs.rbuf.symm, rfl, hmax, hmore⟩, fun fuel => ?_⟩
  unfold frameHeader
  rw [if_neg (not_lt.mpr hheader)]
  dsimp only
  rw [if_neg (not_lt.mpr hmax), if_neg (not_grow hmax hs.rsize)]
  unfold dataRecv
  dsimp only
  rw [toInt32_left hmax hs.rpos, if_neg (by omega)]
  rfl

theorem frameHeader_enters (hs : Sound m.conn) :
    (∀ fuel fuel', frameHeader h fuel m = frameHeader h fuel' m) ∨
      ∃ m', Entered m'.conn ∧ ∀ fuel, frameHeader h fuel m = deliver h fuel m' := by
  by_cases hloop : 4 ≤ m.conn.rpos ∧ (ntohl m.conn.rbuf + 4) % 2 ^ 32 < m.conn.rpos
  · exact Or.inr ⟨framed m, frameHeader_loop hs hloop.1 hloop.2⟩
  · refine Or.inl fun fuel fuel' => ?_
    unfold frameHeader
    split
    · rfl
    · rename_i hheader
      have hless : m.conn.rpos ≤ (ntohl m.conn.rbuf + 4) % 2 ^ 32 := by omega
      dsimp only
      split
      · rfl
      · rename_i hmax
        rw [not_lt] at hmax
        rw [if_neg (not_grow hmax hs.rsize), if_neg (not_grow hmax hs.rsize)]
        rcases hless.lt_or_eq with hlt | heq
        · exact dataRecv_no_loop hlt hmax fuel fuel'
        · unfold dataRecv
          dsimp only
          rw [toInt32_left hmax hs.rpos, if_neg (by omega), if_neg (by omega)]
          exact deliver_no_loop heq.le hmax fuel fuel'

/-- **A read event** that waits for the rest of a frame, or for a new one, does
not depend on the loop, or enters it with a frame size that has just been read. -/
theorem readSocket_enters (hs : Sound m.conn)
    (hwait : m.conn.rsockState = .dataRecv → m.conn.rpos < m.conn.frameSize) :
    (∀ fuel fuel', readSocket h fuel m = readSocket h fuel' m) ∨
      ∃ m', Entered m'.conn ∧ ∀ fuel, readSocket h fuel m = deliver h fuel m' := by
  have hrpos := hs.rpos
  unfold readSocket
  split
  · unfold recvFraming
    rcases hrec : recv (m.conn.rsize - m.conn.rpos) m.script m with ⟨res, m₁⟩
    have hpost := recv_post_of_eq hrec
    have hs₁ : Sound m₁.conn := hpost.conn ▸ hs
    cases res with
    | got bytes =>
      have hgot := (hpost.got bytes rfl).2.2
      rw [hs.rsize] at hgot
      exact frameHeader_enters (store_sound hs₁ (by rw [hpost.conn]; omega))
    | eof => exact Or.inl fun _ _ => rfl
    | eagain => exact frameHeader_enters hs₁
    | error =>
      exact frameHeader_enters ⟨hs₁.rbuf, hs₁.rsize, hs₁.rpos, hs₁.state, hs₁.framed⟩
  · rename_i hstate
    exact Or.inl (dataRecv_no_loop (hwait hstate) (hs.framed hstate))
  · exact Or.inl fun _ _ => rfl

/-- The loop exits after at most `n` iterations; each of them advances `b` and
shrinks `len` by the same positive amount. -/
def Forward (n : ℕ) (m m' : Ctx P σ) : Prop :=
  m'.halted = false ∧ ∃ sizes : List ℤ, sizes.length ≤ n ∧ (∀ size ∈ sizes, 0 < size) ∧
    m'.trace = m.trace ++ calls m.conn.rbuf m.conn.rpos 0 sizes ∧
    (m'.conn.rpos : ℤ) = m.conn.rpos - sizes.sum

theorem Exits.sum_le {size : ℤ} (hexits : Exits mem b len size sizes) (hlen : 0 ≤ len) :
    sizes.sum ≤ len := by
  induction hexits with
  | test _ => exact hlen
  | last hsize _ =>
    rw [List.sum_singleton]
    exact hsize
  | next _ hrest _ _ ih =>
    have := ih (by omega)
    rw [List.sum_cons]
    omega

theorem keepRest_inside (hb : 0 ≤ b) (hlen : 0 ≤ len) (hroom : b + len ≤ m.conn.rbuf.length) :
    (keepRest b len m).halted = m.halted ∧ (keepRest b len m).trace = m.trace ∧
      ((keepRest b len m).conn.rpos : ℤ) = len := by
  unfold keepRest
  rw [if_pos ⟨hb, hlen, hroom⟩]
  exact ⟨rfl, rfl, Int.toNat_of_nonneg hlen⟩

theorem Entered.deliver (hc : Entered m.conn) (fuel : ℕ) :
    deliver h fuel m = pipelined h fuel 0 m.conn.rpos (toInt32 (ntohl m.conn.rbuf + 4)) m := by
  have hsize : toInt32 m.conn.frameSize = toInt32 (ntohl m.conn.rbuf + 4) := by
    rw [hc.size]
    unfold toInt32
    push_cast
    exact Int.emod_bmod _ _
  have hfits := toInt32_size hc.fits
  have hmore := hc.more
  unfold Xkim.deliver
  rw [if_neg (by omega), if_pos (by omega), hsize]

theorem Entered.atTest (hc : Entered m.conn) (hJ : J 0 m.app) :
    AtTest m.conn.rbuf m.conn.rpos J 0 0 m.conn.rpos (ntohl m.conn.rbuf) m := by
  have hfour : (0 : ℤ) + 4 ≤ m.conn.rbuf.length := by
    have := hc.header
    have := hc.room
    omega
  refine ⟨?_, (sub_zero _).symm, rfl, hJ⟩
  rw [lengthWord?, wordAt?_inside (le_refl 0) hfour]
  rfl

/-- **When frame extraction makes progress.**  If `whenReceivedFrame` returns 0 on
every call, the loop exits after at most `_rpos / 4` iterations, each of them
forward, if and only if the length words are steady. -/
theorem deliver_progress_iff (hc : Entered m.conn) (hlive : m.halted = false)
    (hzero : ReturnsZero h m.conn.rbuf m.conn.rpos J) (hJ : J 0 m.app) :
    (∀ fuel, m.conn.rpos / 4 < fuel → Forward (m.conn.rpos / 4) m (deliver h fuel m)) ↔
      Steady m.conn.rbuf m.conn.rpos := by
  have hat := hc.atTest hJ
  have hheader := hc.header
  have hroom := hc.room
  simp only [hc.deliver]
  constructor
  · intro hprogress
    -- the iterations, and enough fuel to see all of them
    obtain ⟨sizes, hexits⟩ := hat.exits hzero (hprogress _ (Nat.lt_succ_self _)).1
    have henough : sizes.length < m.conn.rpos / 4 + 1 + sizes.length := by omega
    obtain ⟨m', heq, -, -, htrace⟩ := hat.run hzero hexits henough
    obtain ⟨hhalted, sizes', hcount, hpos, htrace', -⟩ :=
      hprogress (m.conn.rpos / 4 + 1 + sizes.length) (by omega)
    have hsame : sizes = sizes' := by
      refine calls_injective (List.append_cancel_left (htrace.symm.trans ?_))
      rw [← htrace', heq]
      unfold keepRest
      split <;> rfl
    subst hsame
    intro i b w hword
    have hsteady := hexits.steady hat.word hat.left (by omega) hpos (fun _ => by omega) i
      (by rwa [zero_add])
    rwa [zero_add] at hsteady
  · intro hsteady fuel hfuel
    obtain ⟨sizes, hexits, hpos, hcount⟩ := hsteady.exits hroom m.conn.rpos hat.word
      (Or.inl (le_refl _)) (by omega)
    rw [sub_zero] at hexits
    have hlen : sizes.length ≤ m.conn.rpos / 4 := by
      cases sizes with
      | nil => exact Nat.zero_le _
      | cons size sizes =>
        have := hcount (List.cons_ne_nil _ _)
        omega
    obtain ⟨m', heq, hconn, hhalted, htrace⟩ :=
      hat.run hzero hexits (hlen.trans_lt hfuel)
    have hsum := hexits.sum_le (by omega)
    have hsum₀ : 0 ≤ sizes.sum := List.sum_nonneg fun size hsize => (hpos size hsize).le
    have hb' : 0 ≤ 0 + sizes.sum := by omega
    have hlen' : 0 ≤ (m.conn.rpos : ℤ) - sizes.sum := by omega
    obtain ⟨hhalted', htrace', hrest⟩ :=
      keepRest_inside (m := m') hb' hlen' (by rw [hconn]; omega)
    rw [heq]
    exact ⟨hhalted'.trans (hhalted.trans hlive), sizes, hlen, hpos, htrace'.trans htrace, hrest⟩

/-- A frame of eight bytes and the first byte of the next one. -/
theorem deliver_progress_one_frame :
    Forward 2 (accepted { IoConnection.new Unit with
        rbuf := [0, 0, 0, 4, 0x6D, 0x69, 0x6D, 0x69, 0], rpos := 9, frameSize := 8 } () true [])
      (deliver IoHooks.base 3 (accepted { IoConnection.new Unit with
        rbuf := [0, 0, 0, 4, 0x6D, 0x69, 0x6D, 0x69, 0], rpos := 9, frameSize := 8 } ()
          true [])) := by
  refine (deliver_progress_iff (J := fun _ _ => True) ?_ rfl ⟨?_⟩ trivial).mpr ?_ 3 (by decide)
  · exact ⟨by decide, by decide, by decide, by decide, by decide⟩
  · exact fun _ _ _ => ⟨(), rfl, trivial⟩
  · have hfirst : lengthWord? [0, 0, 0, 4, 0x6D, 0x69, 0x6D, 0x69, 0] 9 0 = some (0, 4) := rfl
    intro i b w hword
    cases i with
    | zero =>
      obtain ⟨rfl, rfl⟩ := Prod.mk.inj (Option.some.inj (hfirst.symm.trans hword))
      exact Or.inl (by decide)
    | succ i =>
      have hnone := lengthWord?_stop hfirst (by decide) i
      rw [zero_add, add_comm 1 i] at hnone
      cases hnone.symm.trans hword

/-- A frame of size zero is the next frame again. -/
theorem pipelined_endless (fuel : ℕ) {m : Ctx Unit Unit}
    (hword : wordAt? m.conn.rbuf 0 = some 0xFFFFFFFC) (hfour : 4 ≤ len) :
    (pipelined IoHooks.base fuel 0 len 0 m).halted = true := by
  induction fuel generalizing m with
  | zero => rfl
  | succ fuel ih =>
    have hsize : toInt32 ((0xFFFFFFFC : ℕ) + 4) = 0 := by decide
    rw [pipelined_iteration (s := ()) (by omega) rfl, if_pos (by omega), add_zero, hword, sub_zero]
    dsimp only
    rw [hsize]
    exact ih hword

theorem Entered.endless {m : Ctx Unit Unit} (hc : Entered m.conn)
    (hword : ntohl m.conn.rbuf = 0xFFFFFFFC) (fuel : ℕ) :
    (Xkim.deliver IoHooks.base fuel m).halted = true := by
  have hheader := hc.header
  have hroom := hc.room
  have hsize : toInt32 ((0xFFFFFFFC : ℕ) + 4) = 0 := by decide
  rw [hc.deliver, hword, hsize]
  refine pipelined_endless fuel ?_ (by omega)
  rw [← hword]
  exact wordAt?_inside (le_refl 0) (by omega)

theorem frameHeader_endless (fuel : ℕ) {m : Ctx Unit Unit} (hs : Sound m.conn)
    (hempty : m.conn.rpos = 0) :
    (frameHeader IoHooks.base fuel (store [0xFF, 0xFF, 0xFF, 0xFC, 0] m)).halted = true := by
  have hrpos : (store [0xFF, 0xFF, 0xFF, 0xFC, 0] m).conn.rpos = 5 := by
    show m.conn.rpos + 5 = 5
    rw [hempty]
  have hrbuf : (store [0xFF, 0xFF, 0xFF, 0xFC, 0] m).conn.rbuf =
      0xFF :: 0xFF :: 0xFF :: 0xFC :: 0 :: m.conn.rbuf.drop 5 := by
    show m.conn.rbuf.take m.conn.rpos ++ [0xFF, 0xFF, 0xFF, 0xFC, 0] ++
      m.conn.rbuf.drop (m.conn.rpos + 5) = _
    rw [hempty]
    rfl
  have hword : ntohl (store [0xFF, 0xFF, 0xFF, 0xFC, 0] m).conn.rbuf = 0xFFFFFFFC := by
    rw [hrbuf]
    rfl
  have hsound : Sound (store [0xFF, 0xFF, 0xFF, 0xFC, 0] m).conn :=
    store_sound hs (by rw [hempty]; decide)
  obtain ⟨hentered, heq⟩ := frameHeader_loop (h := IoHooks.base) hsound
    (by rw [hrpos]; decide) (by rw [hword, hrpos]; decide)
  rw [heq]
  exact hentered.endless hword fuel

theorem readEvents_endless {c : IoConnection Unit} (hc : c.Sized) (fd io : ℤ) (id fuel : ℕ) :
    (readEvents IoHooks.base fuel [[.take 1023]]
      (accepted (c.initializeConn fd io id) () true [0xFF, 0xFF, 0xFF, 0xFC, 0])).halted =
        true := by
  have hrecv := @recv_take Unit Unit c.rsize 1023 []
    { accepted (c.initializeConn fd io id) () true [0xFF, 0xFF, 0xFF, 0xFC, 0] with
      script := [.take 1023] } nofun (by rw [hc.2]; decide) nofun
  have htake : [0xFF, 0xFF, 0xFF, 0xFC, (0 : UInt8)].take (min (1023 + 1) c.rsize) =
      [0xFF, 0xFF, 0xFF, 0xFC, 0] := by
    rw [hc.2]
    rfl
  show (recvFraming IoHooks.base fuel { accepted (c.initializeConn fd io id) () true
    [0xFF, 0xFF, 0xFF, 0xFC, 0] with script := [.take 1023] }).halted = true
  unfold recvFraming
  dsimp only [accepted, IoConnection.initializeConn] at hrecv ⊢
  rw [Nat.sub_zero, hrecv, htake]
  dsimp only
  exact frameHeader_endless fuel ⟨hc.1, hc.2, Nat.zero_le _, Or.inl rfl, nofun⟩ rfl

/-- **A loop that never exits.**  The stream begins with the length word
`FF FF FF FC`, and a fifth byte has arrived. -/
theorem readSocket_never_returns :
    ntohl [0xFF, 0xFF, 0xFF, 0xFC, 0] = 2 ^ 32 - 4 ∧ ∀ fuel,
      (readEvents IoHooks.base fuel [[.take 1023]] (accepted
        ((IoConnection.new Unit).initializeConn 3 0 1) () true
        [0xFF, 0xFF, 0xFF, 0xFC, 0])).halted = true := by
  refine ⟨by decide, ?_⟩
  intro fuel
  exact readEvents_endless (IoConnection.new_sized Unit) 3 0 1 fuel

end Xkim
