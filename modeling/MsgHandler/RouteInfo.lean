/-
MsgHandler/RouteInfo.lean

Publishing where a user is connected: `publishRouteInfo`
(`message/route_info_publisher.cpp`), with the conversions `Uint64ToString` and
`Int64ToString` (`framework/lib/util.cpp`).

The first conversion writes the digits from the start of a buffer on and turns
them round.  The second one writes them from its end backwards, and takes a
digit as

    '0' + value - 10 * (value / 10).

The division rounds towards zero, so for a negative `value` this is a digit
below '0'.  `Int64ToString` passes `-value` for a negative one, and that is
negative again for the smallest `int64_t`.
-/
import MsgHandler.Commands
import MsgHandler.Decimal
import MsgHandler.Message

namespace Xkim

open StringAlgorithms

/-- Conversion to a 64-bit signed integer. -/
def toInt64 (n : ℤ) : ℤ := n.bmod (2 ^ 64)

namespace Util

/-- `buf[p] = c`; `none` outside the buffer. -/
def writeAt (buf : List UInt8) (p : ℤ) (c : UInt8) : Option (List UInt8) :=
  if 0 ≤ p ∧ p < buf.length then some (buf.set p.toNat c) else none

/-- The loop of `Uint64ToString`: the buffer, and the place behind the digits. -/
def digitsUp : ℕ → List UInt8 → ℤ → ℕ → Option (List UInt8 × ℤ)
  | 0, _, _, _ => none
  | fuel + 1, buf, p, i =>
    (writeAt buf p (digitChar (i % 10))).bind fun buf =>
      if i / 10 ≠ 0 then digitsUp fuel buf (p + 1) (i / 10) else some (buf, p + 1)

/-- `Uint64ToString(value)`, where `buf` is what a new buffer has in it. -/
def uint64ToString (buf : List UInt8) (value : ℕ) : Option (List UInt8) :=
  (writeAt buf 31 0).bind fun buf =>
    (digitsUp (buf.length + 1) buf 0 value).bind fun r =>
      (writeAt r.1 r.2 0).map fun buf =>
        cStr 0 ((buf.take r.2.toNat).reverse ++ buf.drop r.2.toNat)

/-- `LLToStr(value, ptr)`: the buffer, and the place of the first digit. -/
def llToStr : ℕ → List UInt8 → ℤ → ℤ → Option (List UInt8 × ℤ)
  | 0, _, _, _ => none
  | fuel + 1, buf, ptr, value =>
    let t := value.tdiv 10
    (writeAt buf (ptr - 1) (UInt8.ofInt (48 + value - 10 * t))).bind fun buf =>
      if t ≠ 0 then llToStr fuel buf (ptr - 1) t else some (buf, ptr - 1)

/-- `Int64ToString(value)`. -/
def int64ToString (buf : List UInt8) (value : ℤ) : Option (List UInt8) :=
  (writeAt buf 31 0).bind fun buf =>
    if 0 ≤ value then
      (llToStr (buf.length + 1) buf 31 value).map fun r => cStr 0 (r.1.drop r.2.toNat)
    else
      (llToStr (buf.length + 1) buf 31 (toInt64 (-value))).map fun r =>
        45 :: cStr 0 (r.1.drop r.2.toNat)

end Util

/-- `publishRouteInfo(uid, msgh_id)`, with the buffers of the two conversions:
what it returns and the calls of hiredis. -/
def publishRouteInfo (op : RedisOperator) (net : Hiredis) (buf buf' : List UInt8) (uid : ℤ)
    (msghId : ℕ) (s : RedisState) : Option (Option Bool × RedisState) :=
  (Util.int64ToString buf uid).bind fun uidStr =>
    (Util.uint64ToString buf' msghId).map fun msghIdStr =>
      let r := op.set net uidStr msghIdStr s
      if r.1 then op.pub net (uidStr ++ 58 :: msghIdStr) r.2 else (some false, r.2)

namespace Util

/-! ### The loops -/

theorem writeAt_eq {buf : List UInt8} {p : ℕ} (hp : p < buf.length) (c : UInt8) :
    writeAt buf p c = some (buf.set p c) := by
  rw [writeAt, if_pos (by omega), Int.toNat_natCast]

/-- What stands at the place that is written, and behind it. -/
theorem drop_set {buf : List UInt8} {p : ℕ} (hp : p < buf.length) (c : UInt8) :
    (buf.set p c).drop p = c :: buf.drop (p + 1) := by
  have hlt : p < (buf.set p c).length := by rwa [List.length_set]
  rw [List.drop_eq_getElem_cons hlt, List.getElem_set_self,
    List.drop_set_of_lt (Nat.lt_succ_self p)]

/-- **The digits written upwards.** -/
theorem digitsUp_eq {fuel p i : ℕ} {buf : List UInt8}
    (hlen : p + (lowDigits i).length ≤ buf.length) (hfuel : (lowDigits i).length ≤ fuel) :
    ∃ buf' : List UInt8,
      digitsUp fuel buf p i = some (buf', ((p + (lowDigits i).length : ℕ) : ℤ)) ∧
      buf'.length = buf.length ∧
      buf'.take (p + (lowDigits i).length) = buf.take p ++ (lowDigits i).map digitChar := by
  induction fuel generalizing p i buf with
  | zero =>
    exact absurd (List.length_eq_zero_iff.mp (Nat.le_zero.mp hfuel)) (lowDigits_ne_nil i)
  | succ fuel ih =>
    rw [lowDigits_eq] at hlen hfuel ⊢
    rw [List.length_cons] at hlen hfuel
    have hp : p < buf.length := by omega
    have htake : (buf.set p (digitChar (i % 10))).take (p + 1) =
        buf.take p ++ [digitChar (i % 10)] := by
      rw [List.take_add_one, List.take_set_of_le (le_refl _), List.getElem?_set_self hp]
      rfl
    rw [digitsUp, writeAt_eq hp, Option.bind_some]
    by_cases hdiv : i / 10 = 0
    · rw [if_neg (not_not.mpr hdiv), if_pos hdiv]
      exact ⟨_, rfl, List.length_set, htake⟩
    · rw [if_pos hdiv, if_neg hdiv]
      rw [if_neg hdiv] at hlen hfuel
      have hroom : p + 1 + (lowDigits (i / 10)).length ≤
          (buf.set p (digitChar (i % 10))).length := by
        rw [List.length_set]
        omega
      obtain ⟨buf', hloop, hsame, hout⟩ := ih hroom (by omega)
      have hsum : p + 1 + (lowDigits (i / 10)).length = p + ((lowDigits (i / 10)).length + 1) := by
        omega
      rw [hsum] at hloop hout
      refine ⟨buf', hloop, hsame.trans List.length_set, ?_⟩
      rw [List.length_cons, hout, htake, List.map_cons, List.append_assoc, List.singleton_append]

/-- The character for a digit, up or down from '0'. -/
def signChar (sign : ℤ) (d : ℕ) : UInt8 := UInt8.ofInt (48 + sign * d)

theorem tdiv_ten {sign : ℤ} (hsign : sign = 1 ∨ sign = -1) (n : ℕ) :
    (sign * n).tdiv 10 = sign * (n / 10 : ℕ) ∧
      sign * n - 10 * (sign * (n / 10 : ℕ)) = sign * (n % 10 : ℕ) := by
  have hnat : (n : ℤ).tdiv 10 = (n / 10 : ℕ) := Int.ofNat_tdiv n 10
  rcases hsign with rfl | rfl
  · rw [one_mul, one_mul, one_mul, hnat]
    exact ⟨rfl, by omega⟩
  · rw [neg_one_mul, neg_one_mul, neg_one_mul, Int.neg_tdiv, hnat]
    exact ⟨rfl, by omega⟩

/-- **The digits written downwards.** -/
theorem llToStr_eq {sign : ℤ} (hsign : sign = 1 ∨ sign = -1) {fuel ptr n : ℕ} {buf : List UInt8}
    (hlen : (lowDigits n).length ≤ ptr) (hptr : ptr ≤ buf.length)
    (hfuel : (lowDigits n).length ≤ fuel) :
    ∃ buf' : List UInt8,
      llToStr fuel buf ptr (sign * n) = some (buf', ((ptr - (lowDigits n).length : ℕ) : ℤ)) ∧
      buf'.drop (ptr - (lowDigits n).length) =
        ((lowDigits n).map (signChar sign)).reverse ++ buf.drop ptr := by
  induction fuel generalizing ptr n buf with
  | zero =>
    exact absurd (List.length_eq_zero_iff.mp (Nat.le_zero.mp hfuel)) (lowDigits_ne_nil n)
  | succ fuel ih =>
    obtain ⟨hdiv, hmod⟩ := tdiv_ten hsign n
    rw [lowDigits_eq] at hlen hfuel ⊢
    rw [List.length_cons] at hlen hfuel
    obtain ⟨ptr, rfl⟩ : ∃ k, ptr = k + 1 := ⟨ptr - 1, by omega⟩
    have hchar : 48 + sign * n - 10 * (sign * (n / 10 : ℕ)) = 48 + sign * (n % 10 : ℕ) := by
      rw [← hmod]
      ring
    have hptr' : ((ptr + 1 : ℕ) : ℤ) - 1 = (ptr : ℕ) := by omega
    have hlt : ptr < buf.length := by omega
    have hdrop := drop_set hlt (signChar sign (n % 10))
    simp only [llToStr, hdiv, hptr', hchar]
    rw [writeAt_eq (by omega), Option.bind_some]
    by_cases hzero : n / 10 = 0
    · have ht : ¬ (sign * (n / 10 : ℕ) ≠ 0) := by
        rw [hzero]
        simp
      rw [if_neg ht, if_pos hzero]
      exact ⟨_, rfl, hdrop⟩
    · have ht : sign * (n / 10 : ℕ) ≠ 0 := by
        rcases hsign with rfl | rfl <;> omega
      rw [if_pos ht, if_neg hzero]
      rw [if_neg hzero] at hlen hfuel
      have hroom : ptr ≤ (buf.set ptr (signChar sign (n % 10))).length := by
        rw [List.length_set]
        omega
      have hless : (lowDigits (n / 10)).length ≤ ptr := by omega
      obtain ⟨buf', hloop, hout⟩ := ih hless hroom (by omega)
      have hsub : ptr + 1 - ((lowDigits (n / 10)).length + 1) =
          ptr - (lowDigits (n / 10)).length := by
        omega
      rw [List.length_cons, hsub]
      refine ⟨buf', hloop, ?_⟩
      rw [hout, hdrop, List.map_cons, List.reverse_cons, List.append_assoc, List.singleton_append]

/-! ### The strings -/

variable {buf : List UInt8}

/-- The NUL at the end of the buffer. -/
theorem writeAt_last (hbuf : buf.length = 32) : writeAt buf 31 0 = some (buf.set 31 0) :=
  writeAt_eq (p := 31) (by omega) 0

theorem drop_set_last (hbuf : buf.length = 32) : (buf.set 31 0).drop 31 = [0] := by
  rw [drop_set (by omega), List.drop_eq_nil_of_le (by omega)]

/-- **`Uint64ToString`.** -/
theorem uint64ToString_eq (hbuf : buf.length = 32) {value : ℕ} (hvalue : value < 2 ^ 64) :
    uint64ToString buf value = some (numeral value) := by
  have hdigits : (lowDigits value).length ≤ 20 :=
    length_lowDigits_le (by decide) (hvalue.trans (by decide))
  have hroom : 0 + (lowDigits value).length ≤ (buf.set 31 0).length := by
    rw [List.length_set]
    omega
  obtain ⟨buf', hloop, hlen, htake⟩ := digitsUp_eq hroom
    (Nat.le_succ_of_le (le_trans (Nat.le_add_left _ 0) hroom))
  rw [Nat.zero_add] at hloop htake
  rw [Nat.cast_zero] at hloop
  rw [List.length_set] at hlen
  have hend : (lowDigits value).length < buf'.length := by omega
  have hnul : 0 ∉ numeral value := fun h => absurd (mem_numeral h).1 (by decide)
  unfold uint64ToString
  rw [writeAt_last hbuf, Option.bind_some, hloop, Option.bind_some, writeAt_eq hend,
    Option.map_some, Int.toNat_natCast, drop_set hend, List.take_set_of_le (le_refl _), htake,
    List.take_zero, List.nil_append]
  exact congrArg some (cStr_append_cons hnul _)

theorem signChar_one {d : ℕ} (hd : d < 10) : signChar 1 d = digitChar d := by
  interval_cases d <;> rfl

theorem signChar_ne_zero {sign : ℤ} (hsign : sign = 1 ∨ sign = -1) {d : ℕ} (hd : d < 10) :
    signChar sign d ≠ 0 := by
  rcases hsign with rfl | rfl <;> interval_cases d <;> decide

/-- What `LLToStr` makes of a number with at most 19 digits. -/
theorem llToStr_string {sign : ℤ} (hsign : sign = 1 ∨ sign = -1) (hbuf : buf.length = 32) {n : ℕ}
    (hn : n < 10 ^ 19) :
    ∃ r, llToStr ((buf.set 31 0).length + 1) (buf.set 31 0) 31 (sign * n) = some r ∧
      cStr 0 (r.1.drop r.2.toNat) = ((lowDigits n).map (signChar sign)).reverse := by
  have hdigits : (lowDigits n).length ≤ 19 := length_lowDigits_le (by decide) hn
  have hptr : 31 ≤ (buf.set 31 0).length := by
    rw [List.length_set]
    omega
  obtain ⟨buf', hloop, hdrop⟩ := llToStr_eq hsign (le_trans hdigits (by decide)) hptr
    (Nat.le_succ_of_le (le_trans (le_trans hdigits (by decide)) hptr))
  refine ⟨_, hloop, ?_⟩
  have hnul : 0 ∉ ((lowDigits n).map (signChar sign)).reverse := by
    rw [List.mem_reverse, List.mem_map]
    rintro ⟨d, hd, hzero⟩
    exact signChar_ne_zero hsign (lt_of_mem_lowDigits hd) hzero
  rw [Int.toNat_natCast, hdrop, drop_set_last hbuf]
  exact cStr_append_cons hnul []

theorem map_signChar_one (n : ℕ) : ((lowDigits n).map (signChar 1)).reverse = numeral n := by
  rw [numeral, List.map_congr_left fun d hd => signChar_one (lt_of_mem_lowDigits hd)]

theorem toInt64_eq_self {n : ℤ} (h₁ : -2 ^ 63 ≤ n) (h₂ : n < 2 ^ 63) : toInt64 n = n := by
  unfold toInt64
  rw [Int.bmod_eq_emod]
  split <;> omega

/-- **`Int64ToString`** of a number that is not negative. -/
theorem int64ToString_natCast (hbuf : buf.length = 32) {n : ℕ} (hn : n < 2 ^ 63) :
    int64ToString buf n = some (numeral n) := by
  obtain ⟨r, hloop, hstring⟩ := llToStr_string (Or.inl rfl) hbuf (hn.trans (by decide))
  rw [one_mul] at hloop
  rw [int64ToString, writeAt_last hbuf, Option.bind_some, if_pos (Int.natCast_nonneg n), hloop,
    Option.map_some, hstring, map_signChar_one]

/-- **`Int64ToString`** of a negative number. -/
theorem int64ToString_neg (hbuf : buf.length = 32) {n : ℕ} (hpos : 0 < n) (hn : n < 2 ^ 63) :
    int64ToString buf (-n) = some (45 :: numeral n) := by
  obtain ⟨r, hloop, hstring⟩ := llToStr_string (Or.inl rfl) hbuf (hn.trans (by decide))
  rw [one_mul] at hloop
  rw [int64ToString, writeAt_last hbuf, Option.bind_some, if_neg (by omega), neg_neg,
    toInt64_eq_self (by omega) (by omega), hloop, Option.map_some, hstring, map_signChar_one]

/-- **The smallest number**: its digits stand below '0'. -/
theorem int64ToString_min (hbuf : buf.length = 32) :
    int64ToString buf (-2 ^ 63) = some [45, 39, 46, 46, 45, 45, 41, 46, 48, 45, 42, 40, 43, 44, 41,
      41, 43, 40, 48, 40] := by
  obtain ⟨r, hloop, hstring⟩ := llToStr_string (Or.inr rfl) hbuf (n := 2 ^ 63) (by decide)
  have hsame : toInt64 (- -2 ^ 63) = -1 * (2 ^ 63 : ℕ) := by decide
  have hdigits : lowDigits (2 ^ 63) =
      [8, 0, 8, 5, 7, 7, 4, 5, 8, 6, 3, 0, 2, 7, 3, 3, 2, 2, 9] := by
    rw [lowDigits, if_neg (by decide)]
    norm_num
  rw [int64ToString, writeAt_last hbuf, Option.bind_some, if_neg (by decide), hsame, hloop,
    Option.map_some, hstring, hdigits]
  rfl

theorem colon_not_mem {n : ℕ} : 58 ∉ numeral n := fun h => absurd (mem_numeral h).2 (by decide)

/-- **Every `int64_t` has a string** without a colon, and it is the numeral but
for the smallest number. -/
theorem int64ToString_spec (hbuf : buf.length = 32) {v : ℤ} (hlow : -2 ^ 63 ≤ v)
    (hhigh : v < 2 ^ 63) :
    ∃ s, int64ToString buf v = some s ∧ 58 ∉ s ∧ (Canonical s ↔ v ≠ -2 ^ 63) ∧
      (Canonical s → intValue s = v) := by
  by_cases hmin : v = -2 ^ 63
  · subst hmin
    refine ⟨_, int64ToString_min hbuf, by decide, ?_⟩
    have hnot : ¬ Canonical [45, 39, 46, 46, 45, 45, 41, 46, 48, 45, 42, 40, 43, 44, 41, 41, 43,
        40, 48, 40] := by
      intro h
      exact absurd (h.1.2.1 39 List.mem_cons_self).1 (by decide)
    exact ⟨iff_of_false hnot (not_not.mpr rfl), fun h => absurd h hnot⟩
  · obtain ⟨n, rfl | rfl⟩ := Int.eq_nat_or_neg v
    · obtain ⟨hcanonical, hvalue⟩ := canonical_numeral n
      exact ⟨_, int64ToString_natCast hbuf (by omega), colon_not_mem, iff_of_true hcanonical hmin,
        fun _ => hvalue⟩
    · by_cases hn : n = 0
      · subst hn
        obtain ⟨hcanonical, hvalue⟩ := canonical_numeral 0
        exact ⟨_, int64ToString_natCast hbuf (by decide), colon_not_mem,
          iff_of_true hcanonical hmin, fun _ => hvalue⟩
      · obtain ⟨hcanonical, hvalue⟩ := canonical_neg_numeral hn
        refine ⟨_, int64ToString_neg hbuf (Nat.pos_of_ne_zero hn) (by omega), ?_,
          iff_of_true hcanonical hmin, fun _ => hvalue⟩
        intro h
        rcases List.mem_cons.mp h with h | h
        · exact absurd h (by decide)
        · exact colon_not_mem h

/-- **Different numbers have different strings.** -/
theorem int64ToString_inj {buf' s : List UInt8} (hbuf : buf.length = 32) (hbuf' : buf'.length = 32)
    {u v : ℤ} (hu : -2 ^ 63 ≤ u ∧ u < 2 ^ 63) (hv : -2 ^ 63 ≤ v ∧ v < 2 ^ 63)
    (hs : int64ToString buf u = some s) (hs' : int64ToString buf' v = some s) : u = v := by
  obtain ⟨su, hsu, -, hcanonical, hvalue⟩ := int64ToString_spec hbuf hu.1 hu.2
  obtain ⟨sv, hsv, -, hcanonical', hvalue'⟩ := int64ToString_spec hbuf' hv.1 hv.2
  obtain rfl := Option.some.inj (hsu.symm.trans hs)
  obtain rfl := Option.some.inj (hsv.symm.trans hs')
  by_cases hc : Canonical sv
  · rw [← hvalue hc, hvalue' hc]
  · have hmin := not_not.mp (mt hcanonical.mpr hc)
    have hmin' := not_not.mp (mt hcanonical'.mpr hc)
    rw [hmin, hmin']

end Util

/-! ### The record -/

/-- `msg` is published between `s` and `t`. -/
def Publishes (msg : List UInt8) (s t : RedisState) : Prop :=
  ∃ calls conn channel, t.trace = s.trace ++ calls ∧
    HiredisCall.command conn (.publish channel msg) ∈ calls

/-- A call of `publishRouteInfo(uid, msgh_id)` publishes `msg`. -/
def PublishesRoute (uid : ℤ) (msghId : ℕ) (msg : List UInt8) : Prop :=
  ∃ (op : RedisOperator) (net : Hiredis) (buf buf' : List UInt8) (s t : RedisState)
    (ret : Option Bool), buf.length = 32 ∧ buf'.length = 32 ∧
      publishRouteInfo op net buf buf' uid msghId s = some (ret, t) ∧ Publishes msg s t

/-- A command that publishes the record, if anything. -/
def OnlyRecord (uidStr msghIdStr : List UInt8) (cmd : RedisCommand) : Prop :=
  ∀ channel msg, cmd = .publish channel msg → msg = uidStr ++ 58 :: msghIdStr

/-- **What is published** is the record. -/
theorem PublishesRoute.eq {uid : ℤ} {msghId : ℕ} {msg : List UInt8}
    (h : PublishesRoute uid msghId msg) :
    ∃ buf buf' uidStr msghIdStr : List UInt8, buf.length = 32 ∧ buf'.length = 32 ∧
      Util.int64ToString buf uid = some uidStr ∧ Util.uint64ToString buf' msghId = some msghIdStr ∧
      msg = uidStr ++ 58 :: msghIdStr := by
  obtain ⟨op, net, buf, buf', s, t, ret, hbuf, hbuf', hcall, calls, conn, channel, ht, hmem⟩ := h
  obtain ⟨uidStr, huid, hcall⟩ := Option.bind_eq_some_iff.mp hcall
  obtain ⟨msghIdStr, hmsgh, hcall⟩ := Option.map_eq_some_iff.mp hcall
  refine ⟨buf, buf', uidStr, msghIdStr, hbuf, hbuf', huid, hmsgh, ?_⟩
  have hset : PassesOnly (OnlyRecord uidStr msghIdStr) s (op.set net uidStr msghIdStr s).2 :=
    (op.request_passes net (.set uidStr msghIdStr) s).imp (by rintro _ rfl _ _ ⟨⟩)
  have hpub : ∀ s, PassesOnly (OnlyRecord uidStr msghIdStr) s
      (op.pub net (uidStr ++ 58 :: msghIdStr) s).2 :=
    fun s => (op.pub_passes net _ s).imp (by rintro _ rfl _ _ ⟨⟩; rfl)
  have hall : PassesOnly (OnlyRecord uidStr msghIdStr) s t := by
    have ht : t = (ret, t).2 := rfl
    rw [ht, ← hcall]
    dsimp only
    split_ifs
    · exact hset.trans (hpub _)
    · exact hset
  obtain ⟨calls', ht', hcalls'⟩ := hall
  obtain rfl := List.append_cancel_left (ht.symm.trans ht')
  exact hcalls' conn _ hmem channel msg rfl

theorem append_colon_inj {a b c d : List UInt8} (ha : 58 ∉ a) (hc : 58 ∉ c)
    (h : a ++ 58 :: b = c ++ 58 :: d) : a = c ∧ b = d := by
  rcases append_cons_cases h with hsame | ⟨e, rfl, -⟩ | ⟨e, rfl, -⟩
  · exact hsame
  · exact absurd (List.mem_append_right a List.mem_cons_self) hc
  · exact absurd (List.mem_append_right c List.mem_cons_self) ha

/-- **The record is unique.** -/
theorem PublishesRoute.unique {uid uid' : ℤ} {msghId msghId' : ℕ} {msg : List UInt8}
    (huid : -2 ^ 63 ≤ uid ∧ uid < 2 ^ 63) (huid' : -2 ^ 63 ≤ uid' ∧ uid' < 2 ^ 63)
    (hmsgh : msghId < 2 ^ 64) (hmsgh' : msghId' < 2 ^ 64) (h : PublishesRoute uid msghId msg)
    (h' : PublishesRoute uid' msghId' msg) : uid = uid' ∧ msghId = msghId' := by
  obtain ⟨b₁, b₂, u, m, hb₁, hb₂, hu, hm, rfl⟩ := h.eq
  obtain ⟨b₁', b₂', u', m', hb₁', hb₂', hu', hm', hmsg⟩ := h'.eq
  obtain ⟨_, hspec, hcolon, -⟩ := Util.int64ToString_spec hb₁ huid.1 huid.2
  obtain rfl := Option.some.inj (hspec.symm.trans hu)
  obtain ⟨_, hspec', hcolon', -⟩ := Util.int64ToString_spec hb₁' huid'.1 huid'.2
  obtain rfl := Option.some.inj (hspec'.symm.trans hu')
  obtain ⟨rfl, rfl⟩ := append_colon_inj hcolon hcolon' hmsg
  refine ⟨Util.int64ToString_inj hb₁ hb₁' huid huid' hu hu', ?_⟩
  rw [Util.uint64ToString_eq hb₂ hmsgh] at hm
  rw [Util.uint64ToString_eq hb₂' hmsgh'] at hm'
  have hsame := Option.some.inj (hm.trans hm'.symm)
  rw [← natValue_numeral msghId, hsame, natValue_numeral]

/-- **The decimal strings** of the two conversions, with every write inside the
buffer, and the record they make. -/
theorem decimal_strings_iff (buf : List UInt8) (hbuf : buf.length = 32) :
    (∀ v : ℤ, -2 ^ 63 ≤ v → v < 2 ^ 63 →
      ((∃ s, Util.int64ToString buf v = some s ∧ Canonical s ∧ intValue s = v) ↔
        v ≠ -2 ^ 63)) ∧
    (∀ v : ℕ, v < 2 ^ 64 →
      ∃ s, Util.uint64ToString buf v = some s ∧ Canonical s ∧ intValue s = v) ∧
    ∀ (uid uid' : ℤ) (msghId msghId' : ℕ) (msg : List UInt8), -2 ^ 63 ≤ uid ∧ uid < 2 ^ 63 →
      -2 ^ 63 ≤ uid' ∧ uid' < 2 ^ 63 → msghId < 2 ^ 64 → msghId' < 2 ^ 64 →
      PublishesRoute uid msghId msg → PublishesRoute uid' msghId' msg →
      uid = uid' ∧ msghId = msghId' := by
  refine ⟨?_, ?_, fun _ _ _ _ _ hu hu' hm hm' => PublishesRoute.unique hu hu' hm hm'⟩
  · intro v hlow hhigh
    obtain ⟨s, hs, -, hcanonical, hvalue⟩ := Util.int64ToString_spec hbuf hlow hhigh
    rw [← hcanonical]
    constructor
    · rintro ⟨s', hs', hc, -⟩
      obtain rfl := Option.some.inj (hs.symm.trans hs')
      exact hc
    · intro hc
      exact ⟨s, hs, hc, hvalue hc⟩
  · intro v hv
    exact ⟨numeral v, Util.uint64ToString_eq hbuf hv, canonical_numeral v⟩

/-- "-1", in a buffer of zeros. -/
theorem decimal_strings_iff_neg_one :
    ∃ s, Util.int64ToString (List.replicate 32 0) (-1) = some s ∧ Canonical s ∧
      intValue s = -1 :=
  ((decimal_strings_iff (List.replicate 32 0) rfl).1 (-1) (by decide) (by decide)).mpr (by decide)

/-- The smallest `int64_t` becomes "-'..--).0-*(+,))+(0(". -/
theorem int64ToString_smallest :
    Util.int64ToString (List.replicate 32 0) (-9223372036854775808) =
      some [45, 39, 46, 46, 45, 45, 41, 46, 48, 45, 42, 40, 43, 44, 41, 41, 43, 40, 48, 40] := by
  rfl

end Xkim
