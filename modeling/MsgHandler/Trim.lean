/-
MsgHandler/Trim.lean

`StringAlgorithms::Trim` and `TrimCopy` (`framework/lib/string_algorithms.cpp`).

`Trim` works in place, with one pointer that reads and one that writes.  A run
of white space is only counted when it is read; the replacement is written
when the next other character is found, together with that character.  So the
writing pointer gains two in such a turn, and the invariant between the two
pointers is

    p1 + (space ? 1 : 0) <= p2.

The overloads for `std::string` copy the string into a buffer, trim the buffer
and take the result from it, all as a C string.  What follows a NUL in the
string is lost.  The run of white space is counted in an `int`, and the length
is returned as one.
-/
import MsgHandler.EditDistance
import MsgHandler.Message
import MsgHandler.Runs

namespace Xkim

namespace StringAlgorithms

/-- `isspace(c)`, in the C locale. -/
def isspace (c : UInt8) : Bool := c = 32 || (9 ≤ c && c ≤ 13)

/-- The variables of `Trim`, and the memory from `in` on.  `writes` has, for
every write, its position and that of `p2`. -/
structure TrimState where
  mem : List UInt8
  p1 : ℕ
  p2 : ℕ
  space : ℕ
  writes : List (ℕ × ℕ)

namespace TrimState

/-- `*p1 = c`. -/
def write (s : TrimState) (c : UInt8) : TrimState :=
  { s with mem := s.mem.set s.p1 c, writes := s.writes ++ [(s.p1, s.p2)] }

/-- `*p1++ = c`. -/
def put (s : TrimState) (c : UInt8) : TrimState := { s.write c with p1 := s.p1 + 1 }

/-- The first loop; `none` outside the memory. -/
def skip : ℕ → TrimState → Option TrimState
  | 0, _ => none
  | fuel + 1, s =>
    s.mem[s.p2]?.bind fun c => if isspace c then skip fuel { s with p2 := s.p2 + 1 } else some s

/-- `*p1++ = *p2++; space = 0;`. -/
def copy (s : TrimState) : Option TrimState :=
  s.mem[s.p2]?.map fun c => { s.put c with p2 := s.p2 + 1, space := 0 }

/-- The second loop; `none` also when `++space` overflows. -/
def loop (replace : UInt8) : ℕ → TrimState → Option TrimState
  | 0, _ => none
  | fuel + 1, s =>
    s.mem[s.p2]?.bind fun c =>
      if c = 0 then some s
      else if isspace c then
        if s.space + 1 < 2 ^ 31 then
          loop replace fuel { s with p2 := s.p2 + 1, space := s.space + 1 }
        else none
      else (if s.space ≠ 0 then s.put replace else s).copy.bind (loop replace fuel)

end TrimState

/-- What a call leaves in memory, what it returns, and its writes. -/
structure Trimmed where
  mem : List UInt8
  ret : ℤ
  writes : List (ℕ × ℕ)

/-- `Trim(in, replace)` for a `char in[]`, where `mem` is the memory from `in`
on. -/
def trim (mem : List UInt8) (replace : UInt8) : Option Trimmed :=
  (TrimState.skip (mem.length + 1) ⟨mem, 0, 0, 0, []⟩).bind fun s =>
    (s.loop replace (mem.length + 1)).map fun s =>
      let s := s.write 0
      ⟨s.mem, toInt32 (cStr 0 s.mem).length, s.writes⟩

/-- `Trim(in, replace)` for a `std::string`. -/
def trimString (str : List UInt8) (replace : UInt8) : Option Trimmed :=
  (trim (str ++ [0]) replace).map fun t =>
    ⟨cStr 0 t.mem, toInt32 (cStr 0 t.mem).length, t.writes⟩

/-- `TrimCopy(in, out, replace)` for a `std::string`: the same with another
place for the result. -/
def trimCopy (str : List UInt8) (replace : UInt8) : Option Trimmed := trimString str replace

/-! ### The loops -/

namespace TrimState

variable {s : TrimState} {text tail : List UInt8} {replace : UInt8}

/-- `p2` is at the text that is not yet read, and the writing pointer is behind
it, with room for a replacement that is due. -/
structure Reads (s : TrimState) (text tail : List UInt8) : Prop where
  ahead : s.mem.drop s.p2 = text ++ 0 :: tail
  behind : s.p1 + (if s.space ≠ 0 then 1 else 0) ≤ s.p2
  writes : ∀ w ∈ s.writes, w.1 ≤ w.2

theorem Reads.head {c : UInt8} (h : s.Reads (c :: text) tail) :
    s.mem[s.p2]? = some c ∧ s.mem.drop (s.p2 + 1) = text ++ 0 :: tail := by
  have hget := congrArg List.head? h.ahead
  have htail := congrArg List.tail h.ahead
  rw [List.head?_drop] at hget
  rw [List.tail_drop] at htail
  exact ⟨hget, htail⟩

theorem Reads.nul (h : s.Reads [] tail) : s.mem[s.p2]? = some 0 := by
  have hget := congrArg List.head? h.ahead
  rwa [List.head?_drop] at hget

/-- A write at a place before `p2`. -/
theorem put_spec (h : s.p1 < s.mem.length) (c : UInt8) :
    (s.put c).mem.take (s.put c).p1 = s.mem.take s.p1 ++ [c] ∧
      ∀ k, s.p1 < k → (s.put c).mem.drop k = s.mem.drop k := by
  refine ⟨?_, fun k hk => List.drop_set_of_lt hk⟩
  show (s.mem.set s.p1 c).take (s.p1 + 1) = _
  rw [List.take_add_one, List.take_set_of_le (le_refl _), List.getElem?_set_self h]
  rfl

theorem write_behind (h : ∀ w ∈ s.writes, w.1 ≤ w.2) (hle : s.p1 ≤ s.p2) (c : UInt8) :
    ∀ w ∈ (s.write c).writes, w.1 ≤ w.2 := by
  intro w hw
  rcases List.mem_append.mp hw with hw | hw
  · exact h w hw
  · rw [List.mem_singleton.mp hw]
    exact hle

/-- **A turn that writes**: a replacement that is due, and the character. -/
theorem Reads.turn {c : UInt8} (h : s.Reads (c :: text) tail) (replace : UInt8) :
    ∃ s', (if s.space ≠ 0 then s.put replace else s).copy = some s' ∧ s'.Reads text tail ∧
      s'.space = 0 ∧
      s'.mem.take s'.p1 = s.mem.take s.p1 ++ (if s.space ≠ 0 then [replace] else []) ++ [c] := by
  obtain ⟨hget, hnext⟩ := h.head
  have hlt : s.p2 < s.mem.length := (List.getElem?_eq_some_iff.mp hget).1
  -- the copy, after the replacement has been written or not
  have hcopy : ∀ s₁ : TrimState, s₁.p2 = s.p2 → s₁.p1 ≤ s.p2 → (∀ w ∈ s₁.writes, w.1 ≤ w.2) →
      s₁.mem.length = s.mem.length → s₁.mem.drop s.p2 = s.mem.drop s.p2 →
      ∃ s', s₁.copy = some s' ∧ s'.Reads text tail ∧ s'.space = 0 ∧
        s'.mem.take s'.p1 = s₁.mem.take s₁.p1 ++ [c] := by
    intro s₁ hp2 hp1 hwrites hlen hdrop
    have hget₁ : s₁.mem[s₁.p2]? = some c := by
      rw [← hget, hp2, ← List.head?_drop, ← List.head?_drop, hdrop]
    obtain ⟨htake, hkeep⟩ := put_spec (s := s₁) (by omega) c
    refine ⟨{ s₁.put c with p2 := s₁.p2 + 1, space := 0 }, ?_, ⟨?_, ?_, ?_⟩, rfl, htake⟩
    · rw [copy, hget₁]
      rfl
    · show (s₁.put c).mem.drop (s₁.p2 + 1) = _
      rw [hkeep _ (by omega), ← hnext, hp2, ← List.drop_drop, hdrop, List.drop_drop]
    · show s₁.p1 + 1 + 0 ≤ s₁.p2 + 1
      omega
    · exact write_behind hwrites (hp2 ▸ hp1) c
  have hbehind := h.behind
  by_cases hspace : s.space ≠ 0
  · rw [if_pos hspace] at hbehind ⊢
    obtain ⟨htake, hkeep⟩ := put_spec (s := s) (by omega) replace
    obtain ⟨s', hs', hreads, hzero, hout⟩ := hcopy (s.put replace) rfl hbehind
      (write_behind h.writes (by omega) replace) List.length_set (hkeep _ (by omega))
    exact ⟨s', hs', hreads, hzero, by rw [hout, htake, if_pos hspace]⟩
  · rw [if_neg hspace] at hbehind ⊢
    obtain ⟨s', hs', hreads, hzero, hout⟩ := hcopy s rfl hbehind h.writes rfl rfl
    exact ⟨s', hs', hreads, hzero, by rw [hout, if_neg hspace, List.append_nil]⟩

theorem Reads.skip {fuel : ℕ} (h : s.Reads text tail) (hfuel : text.length < fuel) :
    ∃ k, TrimState.skip fuel s = some { s with p2 := s.p2 + k } ∧
      ({ s with p2 := s.p2 + k } : TrimState).Reads (text.dropWhile isspace) tail := by
  induction text generalizing s fuel with
  | nil =>
    obtain ⟨fuel, rfl⟩ : ∃ k, fuel = k + 1 := ⟨fuel - 1, by omega⟩
    refine ⟨0, ?_, h⟩
    rw [TrimState.skip, h.nul]
    rfl
  | cons c text ih =>
    obtain ⟨fuel, rfl⟩ : ∃ k, fuel = k + 1 := ⟨fuel - 1, by omega⟩
    obtain ⟨hget, hnext⟩ := h.head
    rw [TrimState.skip, hget, Option.bind_some]
    by_cases hc : isspace c
    · have hbehind := h.behind
      have hreads : ({ s with p2 := s.p2 + 1 } : TrimState).Reads text tail :=
        ⟨hnext, Nat.le_succ_of_le hbehind, h.writes⟩
      obtain ⟨k, hskip, hafter⟩ := ih hreads (Nat.lt_of_succ_lt_succ hfuel)
      rw [if_pos hc, hskip, List.dropWhile_cons_of_pos hc]
      have hsum : s.p2 + 1 + k = s.p2 + (k + 1) := by omega
      exact ⟨k + 1, by rw [← hsum], hsum ▸ hafter⟩
    · rw [if_neg hc, List.dropWhile_cons_of_neg hc]
      exact ⟨0, rfl, h⟩

theorem Reads.count {c : UInt8} (h : s.Reads (c :: text) tail) :
    ({ s with p2 := s.p2 + 1, space := s.space + 1 } : TrimState).Reads text tail := by
  have hbehind := h.behind
  refine ⟨h.head.2, ?_, h.writes⟩
  show s.p1 + (if s.space + 1 ≠ 0 then 1 else 0) ≤ s.p2 + 1
  split_ifs at hbehind ⊢ <;> omega

/-- **The second loop** writes the text in one pass, or its counter overflows. -/
theorem Reads.loop {fuel : ℕ} (h : s.Reads text tail) (hnul : 0 ∉ text)
    (hfuel : text.length < fuel) (replace : UInt8) :
    (CountsBelow isspace (2 ^ 31) s.space text ∧
      ∃ s', s.loop replace fuel = some s' ∧ s'.Reads [] tail ∧
        s'.mem.take s'.p1 =
          s.mem.take s.p1 ++ squeezeFrom isspace replace (s.space ≠ 0) text) ∨
    (¬ CountsBelow isspace (2 ^ 31) s.space text ∧ s.loop replace fuel = none) := by
  induction text generalizing s fuel with
  | nil =>
    obtain ⟨fuel, rfl⟩ : ∃ k, fuel = k + 1 := ⟨fuel - 1, by omega⟩
    refine Or.inl ⟨trivial, s, ?_, h, by rw [squeezeFrom, List.append_nil]⟩
    rw [TrimState.loop, h.nul]
    rfl
  | cons c text ih =>
    obtain ⟨fuel, rfl⟩ : ∃ k, fuel = k + 1 := ⟨fuel - 1, by omega⟩
    rw [List.mem_cons, not_or] at hnul
    have hless := Nat.lt_of_succ_lt_succ hfuel
    rw [TrimState.loop, h.head.1, Option.bind_some, if_neg (Ne.symm hnul.1), squeezeFrom,
      CountsBelow]
    by_cases hc : isspace c
    · simp only [if_pos hc]
      by_cases hspace : s.space + 1 < 2 ^ 31
      · rw [if_pos hspace]
        rcases ih h.count hnul.2 hless with ⟨hcount, s', hloop, hend, hout⟩ | ⟨hcount, hloop⟩
        · refine Or.inl ⟨⟨hspace, hcount⟩, s', hloop, hend, hout.trans ?_⟩
          simp
        · exact Or.inr ⟨fun hall => hcount hall.2, hloop⟩
      · rw [if_neg hspace]
        exact Or.inr ⟨fun hall => hspace hall.1, rfl⟩
    · obtain ⟨s₁, hturn, hreads, hzero, hout₁⟩ := h.turn replace
      have hnext := ih hreads hnul.2 hless
      rw [hzero] at hnext
      simp only [if_neg hc]
      rw [hturn, Option.bind_some]
      rcases hnext with ⟨hcount, s', hloop, hend, hout⟩ | hover
      · refine Or.inl ⟨hcount, s', hloop, hend, hout.trans ?_⟩
        rw [hout₁]
        simp
      · exact Or.inr hover

end TrimState

/-! ### The results -/

variable {text tail : List UInt8} {replace : UInt8}

theorem isspace_nul : isspace 0 = false := by decide

/-- No run of white space behind the first word has `2 ^ 31` characters. -/
def SpaceFits (str : List UInt8) : Prop :=
  ∀ u, u <:+: str.dropWhile isspace → (∀ c ∈ u, isspace c) → u.length < 2 ^ 31

theorem spaceFits_iff {str : List UInt8} :
    SpaceFits str ↔ CountsBelow isspace (2 ^ 31) 0 (str.dropWhile isspace) :=
  (countsBelow_iff (by decide)).symm

/-- **`Trim` on a C string** in memory. -/
theorem trim_eq (hnul : 0 ∉ text) (hreplace : replace ≠ 0) (tail : List UInt8) :
    (SpaceFits text ∧ ∃ t, trim (text ++ 0 :: tail) replace = some t ∧
      cStr 0 t.mem = squeezed isspace replace text ∧
      t.ret = toInt32 (squeezed isspace replace text).length ∧ ∀ w ∈ t.writes, w.1 ≤ w.2) ∨
    (¬ SpaceFits text ∧ trim (text ++ 0 :: tail) replace = none) := by
  have hlen : text.length < (text ++ 0 :: tail).length + 1 := by
    rw [List.length_append]
    omega
  have hstart : TrimState.Reads ⟨text ++ 0 :: tail, 0, 0, 0, []⟩ text tail :=
    ⟨rfl, le_refl 0, fun w hw => nomatch hw⟩
  obtain ⟨k, hskip, hreads⟩ := hstart.skip hlen
  have hdrop : 0 ∉ text.dropWhile isspace := fun h => hnul ((List.dropWhile_sublist _).subset h)
  have hrun := hreads.loop hdrop
    (lt_of_le_of_lt (List.dropWhile_sublist _).length_le hlen) replace
  rw [spaceFits_iff, trim, hskip, Option.bind_some]
  rcases hrun with ⟨hcount, s, hloop, hend, hout⟩ | ⟨hcount, hloop⟩
  swap
  · exact Or.inr ⟨hcount, by rw [hloop]; rfl⟩
  -- what has been written is the text in one pass
  have hsqueezed : s.mem.take s.p1 = squeezed isspace replace text := by
    rw [squeezed_eq, hout]
    simp
  have hp2 : s.p2 < s.mem.length := (List.getElem?_eq_some_iff.mp hend.nul).1
  have hp1 : s.p1 ≤ s.p2 := le_trans (Nat.le_add_right _ _) hend.behind
  have hcstr : cStr 0 (s.write 0).mem = squeezed isspace replace text := by
    have hset : (s.write 0).mem = squeezed isspace replace text ++ 0 :: s.mem.drop (s.p1 + 1) := by
      rw [← hsqueezed]
      exact List.set_eq_take_append_cons_drop.trans (if_pos (lt_of_le_of_lt hp1 hp2))
    have hfree : 0 ∉ squeezed isspace replace text := by
      intro h
      rcases mem_of_mem_squeezed h with h | h
      · exact hnul h
      · exact hreplace h.symm
    rw [hset, cStr_append_cons hfree]
  refine Or.inl ⟨hcount, ⟨(s.write 0).mem, toInt32 (cStr 0 (s.write 0).mem).length,
    (s.write 0).writes⟩, ?_, hcstr, by rw [hcstr], TrimState.write_behind hend.writes hp1 0⟩
  rw [hloop]
  rfl

theorem toInt32_length_iff (n : ℕ) : toInt32 n = n ↔ n < 2 ^ 31 := by
  refine ⟨?_, toInt32_natCast⟩
  intro h
  unfold toInt32 at h
  rw [Int.bmod_eq_emod] at h
  split at h <;> omega

/-- Memory with a C string. -/
theorem exists_cStr {mem : List UInt8} (h : 0 ∈ mem) : ∃ tail, mem = cStr 0 mem ++ 0 :: tail := by
  have hsplit : cStr 0 mem ++ mem.dropWhile (· ≠ 0) = mem := List.takeWhile_append_dropWhile
  rcases hrest : mem.dropWhile (· ≠ 0) with - | ⟨c, tail⟩
  · have hall := List.dropWhile_eq_nil_iff.mp hrest 0 h
    simp at hall
  · have hhead := List.head?_dropWhile_not (fun c : UInt8 => decide (c ≠ 0)) mem
    rw [hrest] at hhead hsplit
    obtain rfl : c = 0 := by simpa using hhead
    exact ⟨tail, hsplit.symm⟩

theorem not_mem_cStr (mem : List UInt8) : 0 ∉ cStr 0 mem := by
  intro h
  have hne := List.mem_takeWhile_imp h
  simp at hne

/-- The string in `mem` is squeezed in place, and its length is returned. -/
def TrimsInPlace (mem : List UInt8) (replace : UInt8) : Prop :=
  ∃ t, trim mem replace = some t ∧ cStr 0 t.mem = squeezed isspace replace (cStr 0 mem) ∧
    t.ret = (squeezed isspace replace (cStr 0 mem)).length ∧ ∀ w ∈ t.writes, w.1 ≤ w.2

/-- The string is squeezed, and its length is returned. -/
def TrimsString (str : List UInt8) (replace : UInt8) : Prop :=
  ∃ t, trimString str replace = some t ∧ t.mem = squeezed isspace replace str ∧
    t.ret = (squeezed isspace replace str).length ∧ ∀ w ∈ t.writes, w.1 ≤ w.2

theorem trimsInPlace_iff {mem : List UInt8} (hmem : 0 ∈ mem) (hreplace : replace ≠ 0) :
    TrimsInPlace mem replace ↔
      SpaceFits (cStr 0 mem) ∧ (squeezed isspace replace (cStr 0 mem)).length < 2 ^ 31 := by
  obtain ⟨tail, htail⟩ := exists_cStr hmem
  rw [← toInt32_length_iff]
  have hcases := trim_eq (not_mem_cStr mem) hreplace tail
  rw [← htail] at hcases
  rcases hcases with ⟨hfits, t, ht, hout, hret, hwrites⟩ | ⟨hfits, hnone⟩
  · constructor
    · rintro ⟨t', ht', -, hret', -⟩
      obtain rfl := Option.some.inj (ht.symm.trans ht')
      exact ⟨hfits, hret.symm.trans hret'⟩
    · rintro ⟨-, hlen⟩
      exact ⟨t, ht, hout, hret.trans hlen, hwrites⟩
  · constructor
    · rintro ⟨t, ht, -⟩
      rw [hnone] at ht
      cases ht
    · exact fun h => absurd h.1 hfits

theorem cStr_append_nul (str : List UInt8) : cStr 0 (str ++ [0]) = cStr 0 str := by
  unfold cStr
  rw [List.takeWhile_append]
  split_ifs with hall
  · rw [(List.takeWhile_prefix _).eq_of_length hall]
    simp
  · rfl

/-- The overload for `std::string` is about the part before the NUL. -/
theorem trimString_eq (str : List UInt8) (hreplace : replace ≠ 0) :
    (SpaceFits (cStr 0 str) ∧ ∃ t, trimString str replace = some t ∧
      t.mem = squeezed isspace replace (cStr 0 str) ∧
      t.ret = toInt32 (squeezed isspace replace (cStr 0 str)).length ∧
      ∀ w ∈ t.writes, w.1 ≤ w.2) ∨
    (¬ SpaceFits (cStr 0 str) ∧ trimString str replace = none) := by
  have hmem : 0 ∈ str ++ [0] := by simp
  obtain ⟨tail, htail⟩ := exists_cStr hmem
  have hcases := trim_eq (not_mem_cStr (str ++ [0])) hreplace tail
  rw [← htail, cStr_append_nul] at hcases
  rcases hcases with ⟨hfits, t, ht, hout, -, hwrites⟩ | ⟨hfits, hnone⟩
  · refine Or.inl ⟨hfits, ⟨cStr 0 t.mem, toInt32 (cStr 0 t.mem).length, t.writes⟩, ?_, hout, ?_,
      hwrites⟩
    · rw [trimString, ht, Option.map_some]
    · rw [hout]
  · exact Or.inr ⟨hfits, by rw [trimString, hnone, Option.map_none]⟩

theorem trimsString_iff (str : List UInt8) (hreplace : replace ≠ 0) :
    TrimsString str replace ↔
      0 ∉ str ∧ SpaceFits str ∧ (squeezed isspace replace str).length < 2 ^ 31 := by
  rw [← toInt32_length_iff]
  rcases trimString_eq str hreplace with ⟨hfits, t, ht, hout, hret, hwrites⟩ | ⟨hfits, hnone⟩
  · constructor
    · rintro ⟨t', ht', hout', hret', -⟩
      obtain rfl := Option.some.inj (ht.symm.trans ht')
      -- a NUL is no white space: it would be in the one and not in the other
      have hnul : 0 ∉ str := by
        intro h
        have hin : (0 : UInt8) ∈ squeezed isspace replace (cStr 0 str) := by
          rw [← hout, hout']
          exact mem_squeezed h (by rw [isspace_nul]; decide)
        rcases mem_of_mem_squeezed hin with hin | hin
        · exact not_mem_cStr str hin
        · exact hreplace hin.symm
      rw [cStr_of_not_mem hnul] at hfits
      rw [cStr_of_not_mem hnul] at hret
      exact ⟨hnul, hfits, hret.symm.trans hret'⟩
    · rintro ⟨hnul, -, hlen⟩
      rw [cStr_of_not_mem hnul] at hout hret
      exact ⟨t, ht, hout, hret.trans hlen, hwrites⟩
  · constructor
    · rintro ⟨t, ht, -⟩
      rw [hnone] at ht
      cases ht
    · rintro ⟨hnul, h, -⟩
      rw [cStr_of_not_mem hnul] at hfits
      exact absurd h hfits

/-- What is trimmed has single characters between its words. -/
theorem spaceFits_squeezed (str : List UInt8) : SpaceFits (squeezed isspace replace str) := by
  rw [spaceFits_iff, squeezed_eq]
  exact (countsBelow_squeezeFrom (by decide) false).dropWhile (by decide)

/-- **When `Trim` is exact**, for a string in memory and for a `std::string`;
with a blank, trimming twice is trimming once. -/
theorem trim_exact_iff (replace : UInt8) (hreplace : replace ≠ 0) :
    (∀ mem : List UInt8, 0 ∈ mem → (TrimsInPlace mem replace ↔
      SpaceFits (cStr 0 mem) ∧ (squeezed isspace replace (cStr 0 mem)).length < 2 ^ 31)) ∧
    (∀ str : List UInt8, TrimsString str replace ↔
      0 ∉ str ∧ SpaceFits str ∧ (squeezed isspace replace str).length < 2 ^ 31) ∧
    ∀ (str : List UInt8) (t : Trimmed), trimString str 32 = some t →
      ∃ t', trimString t.mem 32 = some t' ∧ t'.mem = t.mem := by
  refine ⟨fun mem hmem => trimsInPlace_iff hmem hreplace,
    fun str => trimsString_iff str hreplace, ?_⟩
  intro str t ht
  have hblank : (32 : UInt8) ≠ 0 := by decide
  rcases trimString_eq str hblank with ⟨-, t₁, ht₁, hout, -⟩ | ⟨-, hnone⟩
  swap
  · rw [hnone] at ht
    cases ht
  obtain rfl := Option.some.inj (ht₁.symm.trans ht)
  have hnul : 0 ∉ t₁.mem := by
    rw [hout]
    intro h
    rcases mem_of_mem_squeezed h with h | h
    · exact not_mem_cStr str h
    · exact absurd h (by decide)
  rcases trimString_eq t₁.mem hblank with ⟨-, t', ht', hout', -⟩ | ⟨hfits, -⟩
  · refine ⟨t', ht', ?_⟩
    rw [hout', cStr_of_not_mem hnul, hout, squeezed_squeezed (by decide)]
  · rw [cStr_of_not_mem hnul, hout] at hfits
    exact absurd (spaceFits_squeezed _) hfits

/-- " a  b " becomes "a b". -/
theorem trim_exact_iff_blank : TrimsString [32, 97, 32, 32, 98, 32] 32 :=
  ((trim_exact_iff 32 (by decide)).2.1 _).mpr
    ⟨by decide, fun _ hu _ => lt_of_le_of_lt hu.length_le (by decide), by decide⟩

/-- The `std::string` "a\0b" has no white space, and becomes "a". -/
theorem trimString_nul :
    (trimString [97, 0, 98] 32).map Trimmed.mem = some [97] ∧
      squeezed isspace 32 [97, 0, 98] = [97, 0, 98] := by
  decide

end StringAlgorithms

end Xkim
