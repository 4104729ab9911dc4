/-
MsgHandler/MultiGet.lean

What `RedisOperator::MGet` writes into its output vector
(`framework/lib/redis_operator.cpp`).

The keys are asked for in chunks of `m_keys_nbr_per_mget`.  A chunk that gets
an array of the right length has its strings written, one by one, to the
places of its keys.  For any other chunk the places are to be blanked, by

    std::fill(values.begin()+i, values.begin()+key_size_per_op, "");

but the end of this range is counted from the start of the vector, not from
`i`.  In the first chunk there is no difference.  In the second one the range
is empty if the chunk is full, so that the places keep what was in them
before, and in all others it ends before it begins.

The loop of `MGet` is first shown to be a fold over the replies of the chunks
(`mgetLoop_eq_storeAll`); only the fold is then looked into.
-/
import MsgHandler.Redis

namespace Xkim

namespace RedisOperator

/-! ### What the replies say -/

/-- A reply for `n` keys that can be stored: an array of `n` elements. -/
def wellFormed (n : ℕ) : Option RedisReply → Bool
  | some (.array element) => decide (element ≠ [] ∧ element.length = n)
  | _ => false

/-- The string that the reply has at the place `idx`, if it is a well-formed
reply for `n` keys with a string there. -/
def valueAt (n idx : ℕ) : Option RedisReply → List UInt8
  | some (.array element) => if element.length = n then (element[idx]?.getD none).getD [] else []
  | _ => []

/-- The size of the chunk that starts at `i`, of `keySize` keys in chunks of `m`. -/
def chunkSize (m keySize i : ℕ) : ℕ := min m (keySize - i)

/-- What redis answered for the key `j`, where `replies` are those to the
chunks. -/
def answer (m keySize : ℕ) (replies : List (Option RedisReply)) (j : ℕ) : List UInt8 :=
  match replies[j / m]? with
  | some reply => valueAt (chunkSize m keySize (j / m * m)) (j % m) reply
  | none => []

variable (op : RedisOperator) (net : Hiredis)

/-- The replies to the chunks from `i` on, the retries done, and whether there
was a connection for all of them. -/
def answers (keys : List (List UInt8)) : ℕ → ℕ → RedisState → List (Option RedisReply) × Bool
  | 0, _, _ => ([], false)
  | fuel + 1, i, s =>
    if i < keys.length then
      match op.issue net (.text (mgetCommand keys i (op.keySizePerOp keys.length i))) s with
      | (.lost, _) => ([], false)
      | (issued, t) =>
        let r := answers keys fuel (op.nextIndex i) t
        (issued.reply :: r.1, r.2)
    else ([], true)

/-- The replies to all chunks of a call of `MGet`. -/
def mgetAnswers (fuel : ℕ) (keys : List (List UInt8)) (s : RedisState) :
    List (Option RedisReply) × Bool :=
  let e := op.ensure net s
  if e.1 then op.answers net keys fuel 0 e.2 else ([], false)

/-! ### The loop is a fold over the replies -/

/-- The replies stored one after the other, from the chunk at `i` on. -/
def storeAll (m keySize : ℕ) :
    List (Option RedisReply) → ℕ → List (List UInt8) → Option (List (List UInt8))
  | [], _, values => some values
  | reply :: replies, i, values =>
    (store values i (chunkSize m keySize i) reply).bind (storeAll m keySize replies (i + m))

variable {op}

theorem keysPerOp_pos (hpos : 0 < op.keysNbrPerMget) : 0 < op.keysPerOp := by
  unfold keysPerOp
  rw [if_pos hpos.le]
  omega

theorem nextIndex_of_pos (hpos : 0 < op.keysNbrPerMget) (i : ℕ) :
    op.nextIndex i = i + op.keysPerOp := by
  unfold nextIndex
  rw [if_pos hpos.le]

theorem keySizePerOp_of_pos (hpos : 0 < op.keysNbrPerMget) (keySize i : ℕ) :
    op.keySizePerOp keySize i = chunkSize op.keysPerOp keySize i := by
  unfold keySizePerOp chunkSize
  rw [nextIndex_of_pos hpos]
  have hm := keysPerOp_pos hpos
  split_ifs with hle <;> omega

/-- **The loop of `MGet` stores the replies**, each where its chunk starts, and
it comes to an end. -/
theorem mgetLoop_eq_storeAll (hpos : 0 < op.keysNbrPerMget) (keys : List (List UInt8))
    {fuel i : ℕ} (hfuel : keys.length - i < fuel) (values : List (List UInt8)) (s : RedisState) :
    (op.mgetLoop net keys fuel i values s).1 =
      (storeAll op.keysPerOp keys.length (op.answers net keys fuel i s).1 i values).map
        fun w => ((op.answers net keys fuel i s).2, w) := by
  induction fuel generalizing i values s with
  | zero => exact absurd hfuel (Nat.not_lt_zero _)
  | succ fuel ih =>
    have hm := keysPerOp_pos hpos
    rw [mgetLoop, answers]
    split_ifs with hlt
    · dsimp only
      rw [keySizePerOp_of_pos hpos, nextIndex_of_pos hpos]
      generalize op.issue net _ s = r
      obtain ⟨issued, t⟩ := r
      cases issued with
      | lost => rfl
      | first reply | again reply =>
        -- one reply is stored, whether it came first or after a reconnect
        dsimp only
        rw [storeAll, Issued.reply]
        rcases store values i (chunkSize op.keysPerOp keys.length i) reply with - | v
        · rfl
        · exact ih (by omega) v t
    · rfl

/-- Where every chunk was answered, there is a reply for every key. -/
theorem answers_complete (hpos : 0 < op.keysNbrPerMget) (keys : List (List UInt8)) {fuel i : ℕ}
    {s : RedisState} (hall : (op.answers net keys fuel i s).2 = true) {j : ℕ} (hij : i ≤ j)
    (hj : j < keys.length) :
    (j - i) / op.keysPerOp < (op.answers net keys fuel i s).1.length := by
  induction fuel generalizing i s with
  | zero => exact absurd hall (by simp [answers])
  | succ fuel ih =>
    have hm := keysPerOp_pos hpos
    rw [answers, if_pos (by omega)] at hall ⊢
    rw [nextIndex_of_pos hpos] at hall ⊢
    generalize op.issue net _ s = r at hall ⊢
    obtain ⟨issued, t⟩ := r
    have hrest : (op.answers net keys fuel (i + op.keysPerOp) t).2 = true → (j - i) / op.keysPerOp <
        (op.answers net keys fuel (i + op.keysPerOp) t).1.length + 1 := by
      intro hall'
      rcases Nat.lt_or_ge (j - i) op.keysPerOp with hlt | hge
      · rw [Nat.div_eq_of_lt hlt]
        omega
      · rw [Nat.div_eq_sub_div hm hge, Nat.sub_sub]
        exact Nat.succ_lt_succ (ih hall' (by omega))
    cases issued with
    | lost => exact absurd hall (by simp)
    | first reply | again reply => exact hrest hall

/-! ### What is stored where -/

variable {values w : List (List UInt8)} {m keySize : ℕ}

/-- A list that differs place by place only is as long. -/
theorem length_of_getElem?_map {α : Type*} {l l' : List α} {f : ℕ → α → α}
    (h : ∀ j, l'[j]? = l[j]?.map (f j)) : l'.length = l.length := by
  refine le_antisymm ?_ ?_
  · refine List.getElem?_eq_none_iff.mp ?_
    rw [h, List.getElem?_eq_none le_rfl]
    rfl
  · refine List.getElem?_eq_none_iff.mp ?_
    rw [← Option.map_eq_none_iff (f := f l'.length), ← h]
    exact List.getElem?_eq_none le_rfl

theorem blank_eq_none_iff {first last : ℕ} (hlast : last ≤ values.length) :
    blank values first last = none ↔ last < first := by
  unfold blank
  split_ifs with hrange
  · refine iff_of_false (by simp) ?_
    omega
  · refine iff_of_true rfl ?_
    omega

theorem getElem?_blank {first last : ℕ} (h : blank values first last = some w) (j : ℕ) :
    w[j]? = values[j]?.map fun old => if first ≤ j ∧ j < last then [] else old := by
  unfold blank at h
  split_ifs at h with hrange
  obtain rfl := Option.some.inj h
  obtain ⟨hle, hlen⟩ := hrange
  rw [List.append_assoc]
  rcases Nat.lt_or_ge j first with hj | hj
  · rw [List.getElem?_append_left (by rw [List.length_take]; omega), List.getElem?_take_of_lt hj]
    simp [show ¬ first ≤ j by omega]
  · rw [List.getElem?_append_right (by rw [List.length_take]; omega), List.length_take,
      Nat.min_eq_left (by omega)]
    rcases Nat.lt_or_ge j last with hj' | hj'
    · rw [List.getElem?_append_left (by rw [List.length_replicate]; omega),
        List.getElem?_replicate, if_pos (by omega), List.getElem?_eq_getElem (by omega)]
      simp [hj, hj']
    · rw [List.getElem?_append_right (by rw [List.length_replicate]; omega),
        List.length_replicate, List.getElem?_drop]
      rw [show last + (j - first - (last - first)) = j by omega]
      simp [show ¬ j < last by omega]

theorem getElem?_writeReplies (element : List (Option (List UInt8))) (k j : ℕ) :
    (writeReplies values k element)[j]? = values[j]?.map fun old =>
      if k ≤ j ∧ j < k + element.length then (element[j - k]?.getD none).getD [] else old := by
  induction element generalizing values k with
  | nil => simp [writeReplies, show ¬ (k ≤ j ∧ j < k) by omega]
  | cons sub rest ih =>
    rw [writeReplies, ih, List.getElem?_set, List.length_cons]
    rcases Nat.lt_trichotomy j k with hlt | rfl | hgt
    · simp [show ¬ k = j by omega, show ¬ k ≤ j by omega, show ¬ k + 1 ≤ j by omega]
    · rcases Nat.lt_or_ge j values.length with hj | hj
      · simp [hj]
      · simp [show ¬ j < values.length by omega]
    · rw [if_neg (by omega), show j - k = j - (k + 1) + 1 by omega, List.getElem?_cons_succ]
      have hiff : (k + 1 ≤ j ∧ j < k + 1 + rest.length) ↔
          (k ≤ j ∧ j < k + (rest.length + 1)) := by omega
      simp only [hiff]

/-- What is stored for the key `j` of the chunk at `i`, where `old` was before. -/
def storedAt (n i j : ℕ) (reply : Option RedisReply) (old : List UInt8) : List UInt8 :=
  if wellFormed n reply then valueAt n (j - i) reply
  else if j < n then [] else old

theorem store_of_not_wellFormed {n : ℕ} {reply : Option RedisReply}
    (hbad : wellFormed n reply = false) (i : ℕ) : store values i n reply = blank values i n := by
  rcases reply with - | reply
  · rfl
  · cases reply with
    | array element =>
      have hnot : ¬ (element ≠ [] ∧ element.length = n) := of_decide_eq_false hbad
      dsimp only [store]
      split_ifs with hnil hlen
      · rfl
      · rfl
      · exact absurd ⟨hnil, not_not.mp hlen⟩ hnot
    | error | string str | other => rfl

theorem valueAt_of_not_wellFormed {n : ℕ} {reply : Option RedisReply}
    (hbad : wellFormed n reply = false) (idx : ℕ) : valueAt n idx reply = [] := by
  rcases reply with - | reply
  · rfl
  · cases reply with
    | array element =>
      have hnot : ¬ (element ≠ [] ∧ element.length = n) := of_decide_eq_false hbad
      dsimp only [valueAt]
      split_ifs with hlen
      · obtain rfl : element = [] := by
          by_contra hne
          exact hnot ⟨hne, hlen⟩
        rfl
      · rfl
    | error | string str | other => rfl

theorem store_of_wellFormed (values : List (List UInt8)) {n : ℕ} {reply : Option RedisReply}
    (hok : wellFormed n reply = true) (i : ℕ) :
    ∃ element, reply = some (.array element) ∧ element.length = n ∧
      store values i n reply = some (writeReplies values i element) := by
  rcases reply with - | reply
  · exact absurd hok (by simp [wellFormed])
  · cases reply with
    | array element =>
      obtain ⟨hne, hlen⟩ : element ≠ [] ∧ element.length = n := of_decide_eq_true hok
      refine ⟨element, rfl, hlen, ?_⟩
      dsimp only [store]
      rw [if_neg hne, if_neg (not_not.mpr hlen)]
    | error | string str | other => exact absurd hok (by simp [wellFormed])

/-- A chunk changes its own places only. -/
theorem getElem?_store {i : ℕ} {reply : Option RedisReply} (hvalues : values.length = keySize)
    (h : store values i (chunkSize m keySize i) reply = some w) (j : ℕ) :
    w[j]? = values[j]?.map fun old =>
      if i ≤ j ∧ j < i + m then storedAt (chunkSize m keySize i) i j reply old else old := by
  have hn : chunkSize m keySize i = min m (keySize - i) := rfl
  cases hok : wellFormed (chunkSize m keySize i) reply with
  | true =>
    obtain ⟨element, rfl, hlen, hstore⟩ := store_of_wellFormed values hok i
    obtain rfl := Option.some.inj (hstore.symm.trans h)
    rw [getElem?_writeReplies]
    rcases Nat.lt_or_ge j values.length with hj | hj
    · -- within the vector, the chunk ends where its keys do
      have hiff : (i ≤ j ∧ j < i + element.length) ↔ (i ≤ j ∧ j < i + m) := by omega
      simp only [hiff, storedAt, hok, if_true, valueAt, if_pos hlen]
    · simp [hj]
  | false =>
    rw [store_of_not_wellFormed hok] at h
    rw [getElem?_blank h]
    congr 1
    funext old
    simp only [storedAt, hok, Bool.false_eq_true, if_false]
    split_ifs <;> first | rfl | omega

/-- What the replies leave for the key `j`, where `old` was before. -/
def stored (m keySize : ℕ) (replies : List (Option RedisReply)) (i j : ℕ) (old : List UInt8) :
    List UInt8 :=
  if j < i then old
  else
    match replies[(j - i) / m]? with
    | none => old
    | some reply =>
      let k := i + (j - i) / m * m
      storedAt (chunkSize m keySize k) k j reply old

theorem stored_cons_of_lt {reply : Option RedisReply} {replies : List (Option RedisReply)}
    {i j : ℕ} (hij : i ≤ j) (hj : j < i + m) (old : List UInt8) :
    stored m keySize (reply :: replies) i j old =
      storedAt (chunkSize m keySize i) i j reply old := by
  have hzero : (j - i) / m = 0 := Nat.div_eq_of_lt (by omega)
  simp [stored, show ¬ j < i by omega, hzero]

theorem stored_cons_of_ge (hm : 0 < m) {reply : Option RedisReply}
    {replies : List (Option RedisReply)} {i j : ℕ} (hj : ¬ (i ≤ j ∧ j < i + m))
    (old : List UInt8) :
    stored m keySize (reply :: replies) i j old = stored m keySize replies (i + m) j old := by
  unfold stored
  rcases Nat.lt_or_ge j i with hlt | hge
  · rw [if_pos hlt, if_pos (by omega)]
  · have hdiv : (j - i) / m = (j - (i + m)) / m + 1 := by
      rw [Nat.div_eq_sub_div hm (by omega), Nat.sub_sub]
    rw [if_neg (by omega), if_neg (by omega), hdiv, List.getElem?_cons_succ, Nat.succ_mul,
      show i + ((j - (i + m)) / m * m + m) = i + m + (j - (i + m)) / m * m by omega]

/-- **What the fold leaves**, place by place. -/
theorem getElem?_storeAll (hm : 0 < m) (replies : List (Option RedisReply)) {i : ℕ}
    (hvalues : values.length = keySize) (h : storeAll m keySize replies i values = some w)
    (j : ℕ) : w[j]? = values[j]?.map (stored m keySize replies i j) := by
  induction replies generalizing i values with
  | nil =>
    obtain rfl := Option.some.inj h
    have hid : stored m keySize [] i j = id := by
      funext old
      simp [stored]
    rw [hid, Option.map_id]
    rfl
  | cons reply replies ih =>
    obtain ⟨v, hstore, hrest⟩ := Option.bind_eq_some_iff.mp h
    have hv := getElem?_store hvalues hstore
    have hlen : v.length = keySize := (length_of_getElem?_map hv).trans hvalues
    rw [ih hlen hrest, hv, Option.map_map]
    congr 1
    funext old
    show stored m keySize replies (i + m) j (if _ then _ else old) = _
    by_cases hj : i ≤ j ∧ j < i + m
    · rw [if_pos hj, stored_cons_of_lt hj.1 hj.2]
      simp [stored, hj.2]
    · rw [if_neg hj, stored_cons_of_ge hm hj]

/-- The fold leaves the vector exactly when a chunk that is not well-formed
starts behind the end of the range that is blanked for it. -/
theorem storeAll_isSome_iff (replies : List (Option RedisReply)) {i : ℕ}
    (hvalues : values.length = keySize) :
    (storeAll m keySize replies i values).isSome ↔
      ∀ k reply, replies[k]? = some reply →
        wellFormed (chunkSize m keySize (i + k * m)) reply = false →
          i + k * m ≤ chunkSize m keySize (i + k * m) := by
  induction replies generalizing i values with
  | nil => simp [storeAll]
  | cons reply replies ih =>
    have hrest : (∀ k reply', (reply :: replies)[k]? = some reply' →
        wellFormed (chunkSize m keySize (i + k * m)) reply' = false →
          i + k * m ≤ chunkSize m keySize (i + k * m)) ↔
        (wellFormed (chunkSize m keySize i) reply = false → i ≤ chunkSize m keySize i) ∧
        ∀ k reply', replies[k]? = some reply' →
          wellFormed (chunkSize m keySize (i + m + k * m)) reply' = false →
            i + m + k * m ≤ chunkSize m keySize (i + m + k * m) := by
      constructor
      · intro hall
        refine ⟨fun hbad => ?_, fun k reply' hk hbad => ?_⟩
        · simpa using hall 0 reply rfl (by simpa using hbad)
        · have hshift : i + m + k * m = i + (k + 1) * m := by ring
          rw [hshift] at hbad ⊢
          exact hall (k + 1) reply' hk hbad
      · rintro ⟨hfirst, hall⟩ (- | k) reply' hk hbad
        · obtain rfl : reply = reply' := Option.some.inj hk
          simpa using hfirst (by simpa using hbad)
        · have hshift : i + (k + 1) * m = i + m + k * m := by ring
          rw [hshift] at hbad ⊢
          exact hall k reply' hk hbad
    rw [hrest, storeAll]
    have hn : chunkSize m keySize i ≤ values.length := by
      unfold chunkSize
      omega
    rcases hstore : store values i (chunkSize m keySize i) reply with - | v
    · -- only a range that ends before it begins is not in the vector
      refine iff_of_false (by simp) ?_
      rintro ⟨hfirst, -⟩
      cases hok : wellFormed (chunkSize m keySize i) reply with
      | true =>
        obtain ⟨element, -, -, hsome⟩ := store_of_wellFormed values hok i
        exact absurd (hstore.symm.trans hsome) (by simp)
      | false =>
        rw [store_of_not_wellFormed hok, blank_eq_none_iff hn] at hstore
        exact absurd (hfirst hok) (by omega)
    · have hlen := (length_of_getElem?_map (getElem?_store hvalues hstore)).trans hvalues
      rw [Option.bind_some, ih hlen]
      refine (and_iff_right ?_).symm
      intro hok
      rw [store_of_not_wellFormed hok] at hstore
      by_contra hlt
      rw [(blank_eq_none_iff hn).mpr (by omega)] at hstore
      exact absurd hstore (by simp)

/-! ### When every key is answered -/

theorem length_resize (values : List (List UInt8)) (n : ℕ) : (resize values n).length = n := by
  unfold resize
  rw [List.length_append, List.length_take, List.length_replicate]
  omega

/-- The range that is blanked for the chunk `k` is in the vector if it is the
first chunk, or the second one and full. -/
theorem le_chunkSize_iff (hm : 0 < m) (k : ℕ) :
    k * m ≤ chunkSize m keySize (k * m) ↔ k = 0 ∨ k = 1 ∧ 2 * m ≤ keySize := by
  unfold chunkSize
  rcases k with - | - | k
  · simp
  · rw [Nat.zero_add, Nat.one_mul]
    constructor
    · intro hle
      exact Or.inr ⟨rfl, by omega⟩
    · intro hle
      omega
  · refine iff_of_false ?_ (by omega)
    have hmul : (k + 1 + 1) * m = k * m + m + m := by ring
    omega

/-- What the replies leave for a key differs from what redis answered only in
the second chunk, where the old value is left. -/
theorem stored_eq_answer_iff (hm : 0 < m) {replies : List (Option RedisReply)} {j : ℕ}
    (hj : j < keySize) {reply : Option RedisReply} (hreply : replies[j / m]? = some reply)
    (hrange : wellFormed (chunkSize m keySize (j / m * m)) reply = false →
      j / m = 0 ∨ j / m = 1 ∧ 2 * m ≤ keySize) (old : List UInt8) :
    stored m keySize replies 0 j old = answer m keySize replies j ↔
      (wellFormed (chunkSize m keySize (j / m * m)) reply = false → j / m = 1 → old = []) := by
  have hsplit := Nat.div_add_mod' j m
  have hmod := Nat.mod_lt j hm
  have hstored : stored m keySize replies 0 j old =
      storedAt (chunkSize m keySize (j / m * m)) (j / m * m) j reply old := by
    simp [stored, hreply]
  have hanswer : answer m keySize replies j =
      valueAt (chunkSize m keySize (j / m * m)) (j % m) reply := by
    simp [answer, hreply]
  rw [hstored, hanswer]
  cases hok : wellFormed (chunkSize m keySize (j / m * m)) reply with
  | true =>
    refine iff_of_true ?_ (by simp)
    rw [storedAt, if_pos hok, show j - j / m * m = j % m by omega]
  | false =>
    have hblank : valueAt (chunkSize m keySize (j / m * m)) (j % m) reply = [] :=
      valueAt_of_not_wellFormed hok (j % m)
    have hleft : storedAt (chunkSize m keySize (j / m * m)) (j / m * m) j reply old =
        if j < chunkSize m keySize (j / m * m) then [] else old := by
      rw [storedAt, if_neg (by simp [hok])]
    rw [hblank, hleft]
    rcases hrange hok with hzero | ⟨hone, hfull⟩
    · -- the first chunk is blanked
      rw [hzero, Nat.zero_mul] at hsplit ⊢
      have hlt : j < chunkSize m keySize 0 := by
        unfold chunkSize
        omega
      rw [if_pos hlt]
      exact iff_of_true rfl (fun _ h => absurd h (by simp))
    · -- nothing is blanked in the second one
      rw [hone, Nat.one_mul] at hsplit ⊢
      have hge : ¬ j < chunkSize m keySize m := by
        unfold chunkSize
        omega
      rw [if_neg hge]
      simp

/-- `MGet` has returned, and if it has returned true then there is a value for
every key, the one that redis answered. -/
def Answered (m keySize : ℕ) (replies : List (Option RedisReply)) :
    Option (Bool × List (List UInt8)) → Prop
  | none => False
  | some (ret, values) => ret = true →
      values.length = keySize ∧ ∀ j < keySize, values[j]? = some (answer m keySize replies j)

/-- The chunks that are not well-formed are blanked right: each is the first
one, or it is the second one and full, and if all chunks are answered then its
places were blank before. -/
structure Blanked (m keySize : ℕ) (values : List (List UInt8))
    (replies : List (Option RedisReply)) (complete : Bool) : Prop where
  range : ∀ k reply, replies[k]? = some reply →
    wellFormed (chunkSize m keySize (k * m)) reply = false → k = 0 ∨ k = 1 ∧ 2 * m ≤ keySize
  old : complete = true → ∀ reply, replies[1]? = some reply →
    wellFormed (chunkSize m keySize m) reply = false →
      ∀ j, m ≤ j → j < 2 * m → values[j]? = some []

/-- The fold over all replies. -/
theorem answered_storeAll_iff (hm : 0 < m) (replies : List (Option RedisReply)) (complete : Bool)
    (hvalues : values.length = keySize)
    (hcomplete : complete = true → ∀ j < keySize, j / m < replies.length) :
    Answered m keySize replies
        ((storeAll m keySize replies 0 values).map fun w => (complete, w)) ↔
      Blanked m keySize values replies complete := by
  have hsome := storeAll_isSome_iff (m := m) replies (i := 0) hvalues
  simp only [Nat.zero_add, le_chunkSize_iff hm] at hsome
  rcases hstore : storeAll m keySize replies 0 values with - | w
  · rw [hstore] at hsome
    refine iff_of_false id ?_
    intro hb
    exact absurd (hsome.mpr hb.range) (by simp)
  · rw [hstore] at hsome
    have hrange := hsome.mp rfl
    have hget := getElem?_storeAll hm replies hvalues hstore
    have hlen : w.length = keySize := (length_of_getElem?_map hget).trans hvalues
    -- a key has its answer if the second chunk was blank where it matters
    have hkey : complete = true → ∀ j < keySize, ∃ reply, replies[j / m]? = some reply ∧
        (w[j]? = some (answer m keySize replies j) ↔
          (wellFormed (chunkSize m keySize (j / m * m)) reply = false → j / m = 1 →
            values[j]? = some [])) := by
      intro hc j hj
      have hreply := List.getElem?_eq_getElem (hcomplete hc j hj)
      refine ⟨_, hreply, ?_⟩
      rw [hget, List.getElem?_eq_getElem (hj.trans_eq hvalues.symm), Option.map_some,
        Option.some_inj, stored_eq_answer_iff hm hj hreply (hrange _ _ hreply), Option.some_inj]
    constructor
    · intro hall
      refine ⟨hrange, ?_⟩
      intro hc reply hreply hbad j hmj hj
      have hfull : 2 * m ≤ keySize := by
        rcases hrange 1 reply hreply (by rwa [Nat.one_mul]) with h | h
        · exact absurd h (by simp)
        · exact h.2
      obtain ⟨reply', hreply', hiff⟩ := hkey hc j (by omega)
      have hone : j / m = 1 := by
        rw [Nat.div_eq_iff hm]
        omega
      rw [hone] at hreply' hiff
      obtain rfl : reply = reply' := Option.some.inj (hreply.symm.trans hreply')
      exact hiff.mp ((hall hc).2 j (by omega)) (by rwa [Nat.one_mul]) rfl
    · intro hb hc
      refine ⟨hlen, ?_⟩
      intro j hj
      obtain ⟨reply, hreply, hiff⟩ := hkey hc j hj
      refine hiff.mpr ?_
      intro hbad hone
      rw [hone] at hreply hbad
      have hsplit := Nat.div_add_mod' j m
      have hmod := Nat.mod_lt j hm
      rw [hone] at hsplit
      exact hb.old hc reply hreply (by rwa [Nat.one_mul] at hbad) j (by omega) (by omega)

/-- **`MGet` answers every key exactly when the failed chunks are blanked
right.**  For every list of keys, every content of the output vector, every
positive number of keys per `MGET` and everything that hiredis may answer:
`MGet` stays in its vector and, when it returns true, has for every key the
string that redis answered, or the empty string where its chunk got no
well-formed reply, if and only if no chunk behind the first one failed, but
the second one, in full length and in places that were blank. -/
theorem mget_answered_iff (hpos : 0 < op.keysNbrPerMget) {fuel : ℕ}
    {keys : List (List UInt8)} (hfuel : keys.length < fuel) (values : List (List UInt8))
    (s : RedisState) :
    Answered op.keysPerOp keys.length (op.mgetAnswers net fuel keys s).1
        (op.mget net fuel keys values s).1 ↔
      Blanked op.keysPerOp keys.length (resize values keys.length)
        (op.mgetAnswers net fuel keys s).1 (op.mgetAnswers net fuel keys s).2 := by
  unfold mget mgetAnswers
  dsimp only
  by_cases hok : (op.ensure net s).1 = true
  · simp only [hok, if_true]
    rw [mgetLoop_eq_storeAll net hpos keys (by omega)]
    refine answered_storeAll_iff (keysPerOp_pos hpos) _ _ (length_resize values keys.length) ?_
    intro hall j hj
    have hlt := answers_complete net hpos keys hall (Nat.zero_le j) hj
    rwa [Nat.sub_zero] at hlt
  · simp only [hok, Bool.false_eq_true, if_false]
    exact iff_of_true (by simp [Answered]) ⟨by simp, by simp⟩

/-! ### A second chunk that fails -/

/-- Two keys per `MGET`. -/
def twoPerMget : RedisOperator := ⟨[49, 50, 55, 46, 48, 46, 48, 46, 49], 6379, 0, 2, []⟩

/-- The connection is opened and selected, the first chunk is answered by the
strings "a" and "b", and the second one by an error. -/
def secondFails : Hiredis where
  connect _ := true
  setTimeout _ := true
  command n :=
    if n = 2 then (some .other, false)
    else if n = 3 then (some (.array [some [97], some [98]]), false)
    else (some .error, false)
  freed _ := true

/-- Four keys and an empty vector: the places of the second chunk are blank
from the start. -/
theorem mget_answered_iff_four :
    0 < twoPerMget.keysNbrPerMget ∧ ([[1], [2], [3], [4]] : List (List UInt8)).length < 5 ∧
      Answered 2 4 (twoPerMget.mgetAnswers secondFails 5 [[1], [2], [3], [4]] .new).1
        (twoPerMget.mget secondFails 5 [[1], [2], [3], [4]] [] .new).1 := by
  have hreplies : twoPerMget.mgetAnswers secondFails 5 [[1], [2], [3], [4]] .new =
      ([some (.array [some [97], some [98]]), some .error], true) := by decide
  have hpos : 0 < twoPerMget.keysNbrPerMget := by decide
  have hfuel : ([[1], [2], [3], [4]] : List (List UInt8)).length < 5 := by decide
  refine ⟨hpos, hfuel, ?_⟩
  refine (mget_answered_iff secondFails hpos hfuel [] .new).mpr ?_
  rw [hreplies]
  refine ⟨?_, ?_⟩
  · rintro (- | - | k) reply hk hbad
    · exact Or.inl rfl
    · exact Or.inr ⟨rfl, by decide⟩
    · exact absurd hk (by simp)
  · intro _ reply _ _ j hj hj'
    have hj : 2 ≤ j := hj
    have hj' : j < 4 := hj'
    interval_cases j <;> rfl

/-- **A second chunk that is answered by an error.**  With three keys the range
to blank is from 2 to 1.  With four keys it is empty: `MGet` returns true, and
the third and the fourth value are what was in the vector before. -/
theorem mget_second_chunk_error :
    (twoPerMget.mget secondFails 4 [[1], [2], [3]] [] .new).1 = none ∧
    (twoPerMget.mget secondFails 5 [[1], [2], [3], [4]] [[120], [120], [120], [120]] .new).1 =
      some (true, [[97], [98], [120], [120]]) ∧
    ¬ Answered 2 3 (twoPerMget.mgetAnswers secondFails 4 [[1], [2], [3]] .new).1
      (twoPerMget.mget secondFails 4 [[1], [2], [3]] [] .new).1 ∧
    ¬ Answered 2 4 (twoPerMget.mgetAnswers secondFails 5 [[1], [2], [3], [4]] .new).1
      (twoPerMget.mget secondFails 5 [[1], [2], [3], [4]] [[120], [120], [120], [120]] .new).1 := by
  have hthree : (twoPerMget.mget secondFails 4 [[1], [2], [3]] [] .new).1 = none := by decide
  have hfour : (twoPerMget.mget secondFails 5 [[1], [2], [3], [4]]
      [[120], [120], [120], [120]] .new).1 = some (true, [[97], [98], [120], [120]]) := by decide
  have hreplies : (twoPerMget.mgetAnswers secondFails 5 [[1], [2], [3], [4]] .new).1 =
      [some (.array [some [97], some [98]]), some .error] := by decide
  refine ⟨hthree, hfour, ?_, ?_⟩
  · rw [hthree]
    exact id
  · rw [hfour, hreplies]
    intro hall
    have htwo := (hall rfl).2 2 (by decide)
    exact absurd htwo (by decide)

end RedisOperator

end Xkim
