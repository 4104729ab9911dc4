/-
MsgHandler/Decimal.lean

Decimal numerals as strings of bytes.

A numeral is canonical if it is made of digits, has no zero in front of other
digits, and has a minus sign only in front of a number that is not zero.
`natValue` and `intValue` read a numeral from the left.  The digits of a number
come from the right, the lowest one first (`lowDigits`), and there is always at
least one:

    lowDigits n = n % 10 :: (if n / 10 = 0 then [] else lowDigits (n / 10)).

Turned round they are the canonical numeral (`numeral`).
-/
import Mathlib.Data.Nat.Digits.Lemmas

namespace Xkim

/-! ### Reading -/

/-- The value of a string of digits. -/
def natValue (s : List UInt8) : ℕ := s.foldl (fun n c => 10 * n + (c.toNat - 48)) 0

/-- The value of a string of digits with or without a minus sign. -/
def intValue (s : List UInt8) : ℤ :=
  if s.head? = some 45 then -natValue s.tail else natValue s

/-- Digits without a zero in front of others. -/
def CanonicalNat (s : List UInt8) : Prop :=
  s ≠ [] ∧ (∀ c ∈ s, 48 ≤ c ∧ c ≤ 57) ∧ (s.head? = some 48 → s = [48])

/-- A canonical numeral. -/
def Canonical (s : List UInt8) : Prop :=
  if s.head? = some 45 then CanonicalNat s.tail ∧ s.tail ≠ [48] else CanonicalNat s

/-! ### Writing -/

/-- The digits from the lowest one on. -/
def lowDigits (n : ℕ) : List ℕ := if n = 0 then [0] else Nat.digits 10 n

/-- The character for a digit. -/
def digitChar (d : ℕ) : UInt8 := UInt8.ofNat (48 + d)

/-- The canonical numeral. -/
def numeral (n : ℕ) : List UInt8 := ((lowDigits n).map digitChar).reverse

variable {n d k : ℕ}

theorem lowDigits_eq (n : ℕ) :
    lowDigits n = n % 10 :: if n / 10 = 0 then [] else lowDigits (n / 10) := by
  unfold lowDigits
  by_cases hn : n = 0
  · subst hn
    simp
  · rw [if_neg hn, Nat.digits_def' (by decide) (Nat.pos_of_ne_zero hn)]
    split_ifs with hdiv
    · rw [hdiv, Nat.digits_zero]
    · rfl

theorem lowDigits_ne_nil (n : ℕ) : lowDigits n ≠ [] := by
  rw [lowDigits_eq]
  exact List.cons_ne_nil _ _

theorem lt_of_mem_lowDigits (hd : d ∈ lowDigits n) : d < 10 := by
  unfold lowDigits at hd
  split_ifs at hd
  · rw [List.mem_singleton.mp hd]
    decide
  · exact Nat.digits_lt_base (by decide) hd

theorem length_lowDigits_le (hk : 0 < k) (hn : n < 10 ^ k) : (lowDigits n).length ≤ k := by
  unfold lowDigits
  split_ifs
  · exact hk
  · exact (Nat.digits_length_le_iff (by decide) n).mpr hn

theorem ofDigits_lowDigits (n : ℕ) : Nat.ofDigits 10 (lowDigits n) = n := by
  unfold lowDigits
  split_ifs with hn
  · rw [hn]
    rfl
  · exact Nat.ofDigits_digits 10 n

/-- The highest digit is zero only for the number zero. -/
theorem eq_zero_of_getLast? (h : (lowDigits n).getLast? = some 0) : n = 0 := by
  by_contra hn
  have hne := (Nat.digits_ne_nil_iff_ne_zero (b := 10)).mpr hn
  rw [lowDigits, if_neg hn, List.getLast?_eq_some_getLast hne] at h
  exact Nat.getLast_digit_ne_zero 10 hn (Option.some.inj h)

theorem digitChar_toNat (hd : d < 10) : (digitChar d).toNat = 48 + d := by
  rw [digitChar, UInt8.toNat_ofNat']
  omega

/-! ### Numerals -/

theorem mem_numeral {c : UInt8} (hc : c ∈ numeral n) : 48 ≤ c ∧ c ≤ 57 := by
  obtain ⟨d, hd, rfl⟩ := List.mem_map.mp (List.mem_reverse.mp hc)
  have hlt := lt_of_mem_lowDigits hd
  rw [UInt8.le_iff_toNat_le, UInt8.le_iff_toNat_le, digitChar_toNat hlt]
  constructor
  · exact Nat.le_add_right 48 d
  · show 48 + d ≤ 57
    omega

theorem numeral_ne_nil (n : ℕ) : numeral n ≠ [] := by
  simp [numeral, lowDigits_ne_nil]

/-- **The numeral is read back.** -/
theorem natValue_numeral (n : ℕ) : natValue (numeral n) = n := by
  have hfold : ∀ ds : List ℕ, (∀ d ∈ ds, d < 10) →
      natValue (ds.map digitChar).reverse = Nat.ofDigits 10 ds := by
    intro ds hds
    rw [natValue, List.foldl_reverse, List.foldr_map, Nat.ofDigits_eq_foldr]
    induction ds with
    | nil => rfl
    | cons d ds ih =>
      rw [List.forall_mem_cons] at hds
      rw [List.foldr_cons, List.foldr_cons, ih hds.2, digitChar_toNat hds.1]
      simp [Nat.add_comm]
  rw [numeral, hfold _ fun d hd => lt_of_mem_lowDigits hd, ofDigits_lowDigits]

theorem numeral_head (h : (numeral n).head? = some 48) : n = 0 := by
  rw [numeral, List.head?_reverse, List.getLast?_map, Option.map_eq_some_iff] at h
  obtain ⟨d, hlast, hd⟩ := h
  have hlt := lt_of_mem_lowDigits (List.mem_of_getLast? hlast)
  have hzero := congrArg UInt8.toNat hd
  rw [digitChar_toNat hlt] at hzero
  obtain rfl : d = 0 := by
    have : (48 : UInt8).toNat = 48 := rfl
    omega
  exact eq_zero_of_getLast? hlast

theorem canonicalNat_numeral (n : ℕ) : CanonicalNat (numeral n) := by
  refine ⟨numeral_ne_nil n, fun c hc => mem_numeral hc, fun h => ?_⟩
  rw [numeral_head h]
  rfl

theorem head?_ne_minus {s : List UInt8} (hs : ∀ c ∈ s, 48 ≤ c ∧ c ≤ 57) : s.head? ≠ some 45 := by
  intro h
  exact absurd (hs 45 (List.mem_of_head? h)).1 (by decide)

/-- **The numeral of a number that is not negative.** -/
theorem canonical_numeral (n : ℕ) : Canonical (numeral n) ∧ intValue (numeral n) = n := by
  have hhead := head?_ne_minus fun c hc => mem_numeral (n := n) hc
  rw [Canonical, intValue, if_neg hhead, if_neg hhead, natValue_numeral]
  exact ⟨canonicalNat_numeral n, rfl⟩

/-- **The numeral of a negative number.** -/
theorem canonical_neg_numeral (hn : n ≠ 0) :
    Canonical (45 :: numeral n) ∧ intValue (45 :: numeral n) = -n := by
  rw [Canonical, intValue, if_pos List.head?_cons, if_pos List.head?_cons, List.tail_cons,
    natValue_numeral]
  refine ⟨⟨canonicalNat_numeral n, ?_⟩, rfl⟩
  intro h
  exact hn (numeral_head (by rw [h]; rfl))

end Xkim
