/-
MsgHandler/Varint.lean

Numbers on the wire: base-128 digits with a continuation bit, the lowest digit
first.

    varint (k + 1) n = if n < 128 then [n] else (n % 128 + 128) :: varint k (n / 128)

A reader takes at most ten digits and keeps the low 64 or 32 bits of the value.
A 32-bit signed number is written with its sign extended to 64 bits, so that a
negative one takes all ten digits.

The results are stated with the bytes that follow: reading back what was
written leaves exactly them (`readVarint32_append`, `readVarint64_append`).
-/
import MsgHandler.WireFormat

namespace Xkim.Wire

/-! ### Digits -/

/-- At most `k` digits of `n`. -/
def varint : ℕ → ℕ → List UInt8
  | 0, _ => []
  | k + 1, n =>
    if n < 128 then [UInt8.ofNat n] else UInt8.ofNat (n % 128 + 128) :: varint k (n / 128)

/-- The value of a numeral of at most `k` digits, and the bytes after it. -/
def readDigits : ℕ → List UInt8 → Option (ℕ × List UInt8)
  | 0, _ => none
  | _ + 1, [] => none
  | k + 1, b :: bs =>
    if b.toNat < 128 then some (b.toNat, bs)
    else (readDigits k bs).map fun r => (b.toNat - 128 + 128 * r.1, r.2)

theorem readDigits_varint {k n : ℕ} (h : n < 128 ^ (k + 1)) (rest : List UInt8) :
    readDigits (k + 1) (varint (k + 1) n ++ rest) = some (n, rest) := by
  induction k generalizing n with
  | zero =>
    have hn : n < 128 := by simpa using h
    have hb : (UInt8.ofNat n).toNat = n := by
      rw [UInt8.toNat_ofNat']
      omega
    simp [varint, readDigits, hn, hb]
  | succ k ih =>
    by_cases hn : n < 128
    · have hb : (UInt8.ofNat n).toNat = n := by
        rw [UInt8.toNat_ofNat']
        omega
      simp [varint, readDigits, hn, hb]
    · have hb : (UInt8.ofNat (n % 128 + 128)).toNat = n % 128 + 128 := by
        rw [UInt8.toNat_ofNat']
        omega
      have hdiv : n / 128 < 128 ^ (k + 1) := by
        rw [Nat.div_lt_iff_lt_mul (by omega)]
        rwa [pow_succ] at h
      rw [varint, if_neg hn, List.cons_append, readDigits, if_neg (by omega), ih hdiv]
      simp only [Option.map_some, Option.some.injEq, Prod.mk.injEq, and_true]
      omega

/-- A numeral is read from the front. -/
theorem readDigits_suffix {k : ℕ} {input rest : List UInt8} {n : ℕ}
    (h : readDigits k input = some (n, rest)) : rest.length < input.length := by
  induction k generalizing input n with
  | zero => cases h
  | succ k ih =>
    cases input with
    | nil => cases h
    | cons b bs =>
      rw [readDigits] at h
      split at h
      · obtain ⟨-, rfl⟩ := Prod.mk.inj (Option.some.inj h)
        exact Nat.lt_succ_self _
      · obtain ⟨r, hr, he⟩ := Option.map_eq_some_iff.mp h
        obtain ⟨-, rfl⟩ := Prod.mk.inj he
        have := ih hr
        rw [List.length_cons]
        omega

/-! ### Words -/

/-- A number of at most 64 bits. -/
def writeVarint (n : ℕ) : List UInt8 := varint 10 n

/-- Ten digits at most, of which the low 64 bits count. -/
def readVarint64 (input : List UInt8) : Option (ℕ × List UInt8) :=
  (readDigits 10 input).map fun r => (r.1 % 2 ^ 64, r.2)

/-- All digits are read, and the high bits are dropped. -/
def readVarint32 (input : List UInt8) : Option (ℕ × List UInt8) :=
  (readDigits 10 input).map fun r => (r.1 % 2 ^ 32, r.2)

theorem readVarint64_append {n : ℕ} (h : n < 2 ^ 64) (rest : List UInt8) :
    readVarint64 (writeVarint n ++ rest) = some (n, rest) := by
  have hn : n < 128 ^ (9 + 1) := by
    norm_num
    omega
  unfold readVarint64 writeVarint
  rw [readDigits_varint hn, Option.map_some, Nat.mod_eq_of_lt h]

theorem readVarint32_append {n : ℕ} (h : n < 2 ^ 64) (rest : List UInt8) :
    readVarint32 (writeVarint n ++ rest) = some (n % 2 ^ 32, rest) := by
  have hn : n < 128 ^ (9 + 1) := by
    norm_num
    omega
  unfold readVarint32 writeVarint
  rw [readDigits_varint hn, Option.map_some]

theorem readVarint32_lt {input rest : List UInt8} {n : ℕ}
    (h : readVarint32 input = some (n, rest)) : n < 2 ^ 32 ∧ rest.length < input.length := by
  obtain ⟨r, hr, he⟩ := Option.map_eq_some_iff.mp h
  obtain ⟨rfl, rfl⟩ := Prod.mk.inj he
  exact ⟨Nat.mod_lt _ (by norm_num), readDigits_suffix hr⟩

theorem readVarint64_lt {input rest : List UInt8} {n : ℕ}
    (h : readVarint64 input = some (n, rest)) : n < 2 ^ 64 ∧ rest.length < input.length := by
  obtain ⟨r, hr, he⟩ := Option.map_eq_some_iff.mp h
  obtain ⟨rfl, rfl⟩ := Prod.mk.inj he
  exact ⟨Nat.mod_lt _ (by norm_num), readDigits_suffix hr⟩

theorem length_varint_le (k n : ℕ) : (varint k n).length ≤ k := by
  induction k generalizing n with
  | zero => exact Nat.le_refl 0
  | succ k ih =>
    rw [varint]
    split
    · exact Nat.le_add_left 1 k
    · exact Nat.succ_le_succ (ih _)

theorem length_writeVarint_le (n : ℕ) : (writeVarint n).length ≤ 10 := length_varint_le 10 n

/-! ### Signed words -/

/-- The signed word with the bits of `n`. -/
def int32 (n : ℕ) : ℤ := (n : ℤ).bmod (2 ^ 32)

/-- The sign-extended bits of a word. -/
def signExtend (v : ℤ) : ℕ := (v % 2 ^ 64).toNat

theorem isInt32_int32 (n : ℕ) : IsInt32 (int32 n) := by
  unfold IsInt32 int32
  rw [Int.bmod_eq_emod]
  split <;> omega

theorem signExtend_lt (v : ℤ) : signExtend v < 2 ^ 64 := by
  unfold signExtend
  omega

theorem int32_signExtend {v : ℤ} (h : IsInt32 v) : int32 (signExtend v % 2 ^ 32) = v := by
  obtain ⟨hlo, hhi⟩ := h
  unfold int32 signExtend
  rw [Int.bmod_eq_emod]
  split <;> omega

end Xkim.Wire
