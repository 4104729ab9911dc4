/-
MsgHandler/Split.lean

`StringAlgorithms::Split` (`framework/lib/string_algorithms.cpp`), for a
delimiter that is a character and for one that is a string.

Both versions push a field for every turn of the outer loop, and the loop ends
at the end of the string.  So a field that is empty because the string ends
with the delimiter is not pushed (`splitLoop_eq`).  The second version is meant
to keep it, and looks behind the loop whether the string ends with the
delimiter:

    if (strncmp(l - len, delim, len) == 0)
        results.push_back("");

It does not know which delimiters the loop has found.  In "aaa" the delimiter
"aa" is found once, at the beginning, and the string ends with it all the same.
And a string that is shorter than the delimiter is read before its beginning.

Pointers are offsets from `str`, and reading outside the string or the NUL
behind it is an error.
-/
import MsgHandler.Fields

namespace Xkim

namespace StringAlgorithms

/-- Why a call does not return. -/
inductive Stop
  | outside
  | fuel
  deriving DecidableEq, Repr

variable {T : Type} [DecidableEq T] (nul : T)

/-- The character at the offset `p`; there is a NUL behind the string. -/
def charAt (str : List T) (p : ℤ) : Except Stop T :=
  if 0 ≤ p ∧ p ≤ str.length then .ok (str.getD p.toNat nul) else .error .outside

/-- `strncmp(str + p, delim, len) == 0`, where `len` is the length of `delim`.
It ends at the first difference. -/
def strncmp (str : List T) : ℤ → List T → Except Stop Bool
  | _, [] => .ok true
  | p, d :: ds => do
    if (← charAt nul str p) = d then strncmp str (p + 1) ds else return false

/-- The inner loop; `found` is the test for the delimiter. -/
def scan (str : List T) (found : ℤ → Except Stop Bool) : ℕ → ℤ → Except Stop ℤ
  | 0, _ => .error .fuel
  | fuel + 1, r => do
    if (← charAt nul str r) = nul then return r
    else if ← found r then return r
    else scan str found fuel (r + 1)

/-- The outer loop.  The two pointers are the same at the start of a turn. -/
def splitLoop (str : List T) (found : ℤ → Except Stop Bool) (len : ℤ) :
    ℕ → ℤ → List (List T) → Except Stop (ℤ × List (List T))
  | 0, _, _ => .error .fuel
  | fuel + 1, l, results => do
    if (← charAt nul str l) = nul then return (l, results)
    else
      let r ← scan nul str found (str.length + 1) l
      let results := results ++ [(str.drop l.toNat).take (r - l).toNat]
      if (← charAt nul str r) = nul then splitLoop str found len fuel r results
      else splitLoop str found len fuel (r + len) results

/-- `Split(str, delim, results)` with a `char` as the delimiter. -/
def splitChar (str : List T) (delim : T) : Except Stop (List (List T)) := do
  let found := fun p => do return (← charAt nul str p) = delim
  let e ← splitLoop nul str found 1 (str.length + 1) 0 []
  return e.2

/-- `Split(str, delim, results)` with a string as the delimiter. -/
def split (str delim : List T) : Except Stop (List (List T)) := do
  let len : ℤ := delim.length
  let e ← splitLoop nul str (fun p => strncmp nul str p delim) len (str.length + 1) 0 []
  if ← strncmp nul str (e.1 - len) delim then return e.2 ++ [[]] else return e.2

/-! ### Reading -/

@[simp] theorem ok_bind {ε α β : Type} (a : α) (f : α → Except ε β) :
    ((Except.ok a : Except ε α) >>= f) = f a := rfl

variable {nul} {str delim : List T} {found : ℤ → Except Stop Bool}

omit [DecidableEq T] in
theorem charAt_lt {p : ℕ} (hp : p < str.length) : charAt nul str p = .ok str[p] := by
  rw [charAt, if_pos (by omega), Int.toNat_natCast, List.getD_eq_getElem _ _ hp]

omit [DecidableEq T] in
theorem charAt_length : charAt nul str str.length = .ok nul := by
  rw [charAt, if_pos (by omega), Int.toNat_natCast, List.getD_eq_default _ _ (le_refl _)]

omit [DecidableEq T] in
theorem charAt_neg {p : ℤ} (hp : p < 0) : charAt nul str p = .error .outside := by
  rw [charAt, if_neg (by omega)]

/-- A comparison that begins inside the string ends there. -/
theorem strncmp_eq (hnul : nul ∉ delim) {p : ℕ} (hp : p ≤ str.length) :
    strncmp nul str p delim = .ok (decide (delim <+: str.drop p)) := by
  induction delim generalizing p with
  | nil => simp [strncmp]
  | cons d ds ih =>
    rw [List.mem_cons, not_or] at hnul
    obtain ⟨hd, hds⟩ := hnul
    rw [strncmp]
    rcases Nat.lt_or_eq_of_le hp with hlt | rfl
    · rw [List.drop_eq_getElem_cons hlt, charAt_lt hlt, ok_bind]
      simp only [List.cons_prefix_cons]
      split_ifs with hc
      · have hnext := ih hds (p := p + 1) hlt
        rw [Nat.cast_add, Nat.cast_one] at hnext
        rw [hnext]
        simp [hc]
      · have hne : ¬ d = str[p] := fun h => hc h.symm
        simp only [hne, false_and, decide_false]
        rfl
    · rw [charAt_length, ok_bind, if_neg hd, List.drop_length]
      simp only [List.prefix_nil, List.cons_ne_nil, decide_false]
      rfl

theorem strncmp_outside (hdelim : delim ≠ []) {p : ℤ} (hp : p < 0) :
    strncmp nul str p delim = .error .outside := by
  obtain ⟨d, ds, rfl⟩ := List.exists_cons_of_ne_nil hdelim
  rw [strncmp, charAt_neg hp]
  rfl

/-! ### The loops -/

/-- The test finds the delimiter wherever it is used. -/
def Finds (str delim : List T) (found : ℤ → Except Stop Bool) : Prop :=
  ∀ p : ℕ, p < str.length → found p = .ok (decide (delim <+: str.drop p))

/-- **The inner loop** ends at the first delimiter from `r` on, or at the end. -/
theorem scan_spec (hstr : nul ∉ str) (hfound : Finds str delim found) {fuel r : ℕ}
    (hr : r ≤ str.length) (hfuel : str.length - r < fuel) :
    ∃ r' : ℕ, scan nul str found fuel r = .ok (r' : ℤ) ∧ r ≤ r' ∧ r' ≤ str.length ∧
      (∀ i, r ≤ i → i < r' → ¬ delim <+: str.drop i) ∧
      (r' < str.length → delim <+: str.drop r') := by
  induction fuel generalizing r with
  | zero => exact absurd hfuel (Nat.not_lt_zero _)
  | succ fuel ih =>
    rw [scan]
    rcases Nat.lt_or_eq_of_le hr with hlt | rfl
    · have hc : ¬ str[r] = nul := by
        rintro rfl
        exact hstr (List.getElem_mem hlt)
      rw [charAt_lt hlt, ok_bind, if_neg hc, hfound r hlt, ok_bind]
      by_cases hpre : delim <+: str.drop r
      · rw [if_pos (decide_eq_true hpre)]
        refine ⟨r, rfl, le_refl r, hr, ?_, fun _ => hpre⟩
        intro i hri hir
        omega
      · rw [if_neg (by rw [decide_eq_false hpre]; decide)]
        obtain ⟨r', hscan, hle, hend, hnot, hthere⟩ := ih (r := r + 1) hlt (by omega)
        rw [Nat.cast_add, Nat.cast_one] at hscan
        refine ⟨r', hscan, by omega, hend, ?_, hthere⟩
        intro i hri hir
        rcases Nat.lt_or_eq_of_le hri with hlt' | rfl
        · exact hnot i hlt' hir
        · exact hpre
    · rw [charAt_length, ok_bind, if_pos rfl]
      exact ⟨str.length, rfl, le_refl _, le_refl _, fun i hri hir => by omega, fun h => by omega⟩

/-- The fields without an empty one at the end. -/
def withoutTrailing (fs : List (List T)) : List (List T) :=
  if fs.getLast? = some [] then fs.dropLast else fs

theorem withoutTrailing_cons (u : List T) {fs : List (List T)} (hfs : fs ≠ []) :
    withoutTrailing (u :: fs) = u :: withoutTrailing fs := by
  unfold withoutTrailing
  rw [List.getLast?_cons_of_ne_nil hfs, List.dropLast_cons_of_ne_nil hfs]
  split_ifs <;> rfl

/-- The outer loop ends at the end of the string. -/
theorem splitLoop_end (len : ℤ) (fuel : ℕ) (results : List (List T)) :
    splitLoop nul str found len (fuel + 1) str.length results = .ok (str.length, results) := by
  rw [splitLoop, charAt_length, ok_bind, if_pos rfl]
  rfl

/-- **The outer loop** pushes the fields of what lies before it, less an empty
one at the end. -/
theorem splitLoop_eq (hstr : nul ∉ str) (hdelim : delim ≠ []) (hfound : Finds str delim found)
    {s : List T} {fuel l : ℕ} (hl : l ≤ str.length) (hs : str.drop l = s) (hfuel : s.length < fuel)
    (results : List (List T)) :
    splitLoop nul str found delim.length fuel l results =
      .ok (str.length, results ++ withoutTrailing (fields delim s)) := by
  -- one turn that is not the last
  have hturn : ∀ {fuel l r : ℕ} {results : List (List T)}, l < str.length → l ≤ r →
      r ≤ str.length → scan nul str found (str.length + 1) l = .ok (r : ℤ) →
      splitLoop nul str found delim.length (fuel + 1) l results =
        splitLoop nul str found delim.length fuel
          (if r = str.length then r else r + delim.length : ℕ)
          (results ++ [(str.drop l).take (r - l)]) := by
    intro fuel l r results hlt hlr hr hscan
    have hc : ¬ str[l] = nul := by
      rintro rfl
      exact hstr (List.getElem_mem hlt)
    rw [splitLoop, charAt_lt hlt, ok_bind, if_neg hc, hscan, ok_bind, Int.toNat_natCast,
      ← Nat.cast_sub hlr, Int.toNat_natCast]
    rcases Nat.lt_or_eq_of_le hr with hr' | rfl
    · have hc' : ¬ str[r] = nul := by
        rintro rfl
        exact hstr (List.getElem_mem hr')
      rw [charAt_lt hr', ok_bind, if_neg hc', if_neg hr'.ne, Nat.cast_add]
    · rw [charAt_length, ok_bind, if_pos rfl, if_pos rfl]
  refine fields_rec hdelim (P := fun s fs => ∀ (fuel l : ℕ) (results : List (List T)),
    l ≤ str.length → str.drop l = s → s.length < fuel →
      splitLoop nul str found delim.length fuel l results =
        .ok (str.length, results ++ withoutTrailing fs)) ?_ ?_ s fuel l results hl hs hfuel
  · intro s hfree fuel l results hl hs hfuel
    have hlen : s.length = str.length - l := by rw [← hs, List.length_drop]
    obtain ⟨fuel, rfl⟩ : ∃ k, fuel = k + 1 := ⟨fuel - 1, by omega⟩
    rcases Nat.lt_or_eq_of_le hl with hlt | rfl
    · obtain ⟨r, hscan, hlr, hr, -, hthere⟩ :=
        scan_spec hstr hfound hl (Nat.lt_succ_of_le (Nat.sub_le _ l))
      have hend : r = str.length := by
        by_contra hne
        have hpre := hthere (by omega)
        refine hfree (r - l) (by omega) ?_
        rw [← hs, List.drop_drop, Nat.add_sub_cancel' hlr]
        exact hpre
      obtain ⟨fuel, rfl⟩ : ∃ k, fuel = k + 1 := ⟨fuel - 1, by omega⟩
      subst hend
      rw [hturn hlt hlr hr hscan, if_pos rfl, splitLoop_end, hs,
        List.take_of_length_le (by omega)]
      have hne : s ≠ [] := by
        rintro rfl
        rw [List.length_nil] at hlen
        omega
      simp [withoutTrailing, hne]
    · rw [List.drop_length] at hs
      subst hs
      rw [splitLoop_end]
      simp [withoutTrailing]
  · intro u v hfirst ih fuel l results hl hs hfuel
    have hpos : 0 < delim.length := List.length_pos_iff.mpr hdelim
    have hlen := congrArg List.length hs
    simp only [List.length_append, List.length_drop] at hlen hfuel
    obtain ⟨fuel, rfl⟩ : ∃ k, fuel = k + 1 := ⟨fuel - 1, by omega⟩
    obtain ⟨r, hscan, hlr, hr, hnot, hthere⟩ :=
      scan_spec hstr hfound hl (Nat.lt_succ_of_le (Nat.sub_le _ l))
    -- the loop ends where `u` does
    have hat : ∀ i, str.drop (l + i) = (u ++ (delim ++ v)).drop i := by
      intro i
      rw [← hs, List.drop_drop]
    have hend : r = l + u.length := by
      have hnotlt : ¬ r < l + u.length := by
        intro hlt
        refine hfirst (r - l) (by omega) ?_
        rw [← hat, Nat.add_sub_cancel' hlr]
        exact hthere (by omega)
      have hnotgt : ¬ l + u.length < r := by
        intro hgt
        refine hnot (l + u.length) (by omega) hgt ?_
        rw [hat, List.drop_left]
        exact List.prefix_append delim v
      omega
    subst hend
    rw [hturn (by omega) hlr hr hscan, if_neg (by omega), Nat.add_sub_cancel_left, hs,
      List.take_left, withoutTrailing_cons u (fields_ne_nil hdelim v),
      ih fuel _ _ (by omega) ?_ (by omega), List.append_assoc, List.singleton_append]
    rw [Nat.add_assoc, hat, ← List.drop_drop, List.drop_left, List.drop_left]

/-! ### The two versions -/

/-- With a character as the delimiter, an empty field at the end is lost. -/
theorem splitChar_eq (hstr : nul ∉ str) (d : T) :
    splitChar nul str d = .ok (withoutTrailing (fields [d] str)) := by
  have hfound : Finds str [d] fun p => do return (← charAt nul str p) = d := by
    intro p hp
    dsimp only
    rw [charAt_lt hp, ok_bind, List.drop_eq_getElem_cons hp]
    refine congrArg Except.ok (decide_eq_decide.mpr ?_)
    rw [List.cons_prefix_cons, eq_comm, and_iff_left List.nil_prefix]
  have hloop := splitLoop_eq hstr (List.cons_ne_nil d []) hfound (Nat.zero_le _) rfl
    (Nat.lt_succ_self _) []
  rw [List.length_singleton, Nat.cast_one, List.drop_zero, List.nil_append] at hloop
  unfold splitChar
  dsimp only
  rw [show (0 : ℤ) = ((0 : ℕ) : ℤ) from rfl, hloop]
  rfl

/-- The look behind the loop. -/
theorem strncmp_behind (hnul : nul ∉ delim) (hlen : delim.length ≤ str.length) :
    strncmp nul str ((str.length : ℤ) - delim.length) delim = .ok (decide (delim <:+ str)) := by
  rw [← Nat.cast_sub hlen, strncmp_eq hnul (Nat.sub_le _ _)]
  refine congrArg Except.ok (decide_eq_decide.mpr ?_)
  rw [List.suffix_iff_eq_drop]
  refine ⟨?_, ?_⟩
  · intro hpre
    refine hpre.eq_of_length ?_
    rw [List.length_drop]
    omega
  · intro heq
    rw [← heq]

/-- **What `Split` returns** for a delimiter that is a string. -/
theorem split_eq (hstr : nul ∉ str) (hdelim : delim ≠ []) (hnul : nul ∉ delim) :
    split nul str delim =
      if delim.length ≤ str.length then
        .ok (withoutTrailing (fields delim str) ++ if delim <:+ str then [[]] else [])
      else .error .outside := by
  have hfound : Finds str delim fun p => strncmp nul str p delim :=
    fun p hp => strncmp_eq hnul hp.le
  have hloop := splitLoop_eq hstr hdelim hfound (Nat.zero_le _) rfl (Nat.lt_succ_self _) []
  rw [List.drop_zero, List.nil_append] at hloop
  unfold split
  dsimp only
  rw [show (0 : ℤ) = ((0 : ℕ) : ℤ) from rfl, hloop, ok_bind]
  split_ifs with hlen hsuf
  · rw [strncmp_behind hnul hlen, ok_bind, if_pos (decide_eq_true hsuf)]
    rfl
  · rw [strncmp_behind hnul hlen, ok_bind, if_neg (by rw [decide_eq_false hsuf]; decide),
      List.append_nil]
    rfl
  · rw [strncmp_outside hdelim (by omega)]
    rfl

/-- `Split` reads inside the string only, and a string that is not empty is
split into its fields. -/
def SplitsFromLeft (nul : T) (str delim : List T) : Prop :=
  ∃ results, split nul str delim = .ok results ∧
    (str ≠ [] → results = fields delim str ∧ delim.intercalate results = str)

/-- The delimiter is not longer than the string, and where the string ends with
it, the scan finds it there. -/
def FoundAtEnd (str delim : List T) : Prop :=
  delim.length ≤ str.length ∧ (delim <:+ str → (fields delim str).getLast? = some [])

instance (str delim : List T) : Decidable (FoundAtEnd str delim) :=
  inferInstanceAs (Decidable (_ ∧ _))

/-- The look behind the loop is right. -/
theorem withoutTrailing_append_eq_iff (hdelim : delim ≠ []) (hstr : str ≠ []) :
    withoutTrailing (fields delim str) ++ (if delim <:+ str then [[]] else []) = fields delim str ↔
      (delim <:+ str → (fields delim str).getLast? = some []) := by
  unfold withoutTrailing
  by_cases hlast : (fields delim str).getLast? = some []
  · rw [if_pos hlast, if_pos (suffix_of_last_nil hdelim hstr hlast)]
    exact iff_of_true (List.dropLast_append_getLast? [] hlast) fun _ => hlast
  · rw [if_neg hlast, List.append_right_eq_self]
    constructor
    · intro hnil hsuf
      rw [if_pos hsuf] at hnil
      cases hnil
    · intro himp
      exact if_neg fun hsuf => hlast (himp hsuf)

/-- **When `Split` is the split from the left**, for every string and every
delimiter that is not empty. -/
theorem split_iff_foundAtEnd (hstr : nul ∉ str) (hdelim : delim ≠ []) (hnul : nul ∉ delim) :
    SplitsFromLeft nul str delim ↔ FoundAtEnd str delim := by
  unfold SplitsFromLeft FoundAtEnd
  rw [split_eq hstr hdelim hnul]
  by_cases hlen : delim.length ≤ str.length
  · have hne : str ≠ [] := by
      rintro rfl
      exact hdelim (List.length_eq_zero_iff.mp (Nat.le_zero.mp hlen))
    rw [if_pos hlen, and_iff_right hlen, ← withoutTrailing_append_eq_iff hdelim hne]
    constructor
    · rintro ⟨results, hresults, hfields⟩
      rw [Except.ok.inj hresults]
      exact (hfields hne).1
    · intro heq
      exact ⟨_, rfl, fun _ => ⟨heq, by rw [heq, intercalate_fields hdelim]⟩⟩
  · rw [if_neg hlen]
    refine iff_of_false ?_ fun h => hlen h.1
    rintro ⟨results, hresults, -⟩
    cases hresults

/-- "a,b," has three fields, of which the last one is empty. -/
theorem split_iff_foundAtEnd_comma : SplitsFromLeft (0 : UInt8) [97, 44, 98, 44] [44] :=
  (split_iff_foundAtEnd (by decide) (by decide) (by decide)).mpr (by decide)

/-- "aaa" is split at "aa" into "", "a" and "", which joined again are "aaaaa",
and a string that is shorter than its delimiter is read before its beginning. -/
theorem split_aaa_aa :
    split (0 : UInt8) [97, 97, 97] [97, 97] = .ok [[], [97], []] ∧
      fields ([97, 97] : List UInt8) [97, 97, 97] = [[], [97]] ∧
      split (0 : UInt8) [97] [97, 98] = .error .outside :=
  ⟨rfl, by decide, rfl⟩

end StringAlgorithms

end Xkim
