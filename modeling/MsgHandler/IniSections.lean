/-
MsgHandler/IniSections.lean

The sections of a configuration file (`IniGetSecValues` in
`framework/lib/ini_file_reader.cpp`).

The keys of a section are kept as one string, joined by ",", and split again
when they are asked for.  A key is added on every assignment:

    ini_kv_map[section_name] += std::string(SEC_KEYS_DELIM_STR) + item_key;

So the string holds the keys of all items of the section, in their order
(`KeyLists`), and a key that is assigned twice is listed twice.
-/
import MsgHandler.IniLookup

namespace Xkim

namespace IniFileReader

open StringAlgorithms

/-- `SecKeyValue`. -/
structure SecKeyValue where
  key : List UInt8
  value : List UInt8
  deriving DecidableEq, Repr

/-- `IniGetSecValues`: what is returned, and the vector after the call. -/
def iniGetSecValues (kvMap : KvMap) (sectionName : List UInt8) (secKv : List SecKeyValue) :
    Except Stop (ℤ × List SecKeyValue) :=
  if sectionName = [] then .ok (-1, secKv)
  else match kvMap sectionName with
    | none => .ok (-1, [])
    | some keys => do
      let secKeys ← splitChar 0 (cStr 0 keys) 44
      if secKeys.length = 0 then return (-1, [])
      else return (0, secKeys.map fun key => ⟨key, iniGetValue kvMap sectionName key⟩)

/-- The keys that are assigned in a section, in their order. -/
def keysOf (es : List Entry) (s : List UInt8) : List (List UInt8) :=
  (es.filter fun e => e.sectionName = s).map Entry.key

/-- The records of the statement: names and keys without "@" and ",". -/
def Line.Plain : Line → Prop
  | .header name => name ≠ [] ∧ 64 ∉ name ∧ 44 ∉ name
  | .item key _ => key ≠ [] ∧ 64 ∉ key ∧ 44 ∉ key

/-- A section is listed iff it has an item, with every key once, in the order
of the first assignments, and the value a look-up gives. -/
def Lists (es : List Entry) (kvMap : KvMap) : Prop :=
  ∀ s, 64 ∉ s → ∀ secKv, ∃ ret kv, iniGetSecValues kvMap s secKv = .ok (ret, kv) ∧
    (ret = 0 ↔ keysOf es s ≠ []) ∧
    (ret = 0 → kv = (keysOf es s).eraseDups.map fun key => ⟨key, iniGetStrValue kvMap s key []⟩)

variable {es : List Entry} {s key value : List UInt8} {r : Reading} {kvMap : KvMap}

/-! ### Distinct keys -/

theorem eraseDups_eq_self_iff {α : Type*} [BEq α] [LawfulBEq α] {l : List α} :
    l.eraseDups = l ↔ l.Nodup := by
  induction l with
  | nil => simp
  | cons a l ih =>
    have hfilter : a ∉ l → l.filter (fun b => !b == a) = l := by
      intro ha
      rw [List.filter_eq_self]
      intro b hb
      have hne : b ≠ a := fun h => ha (h ▸ hb)
      simp [hne]
    rw [List.eraseDups_cons, List.cons.injEq, List.nodup_cons]
    constructor
    · rintro ⟨-, h⟩
      have ha : a ∉ l := by
        intro ha
        rw [← h, List.mem_eraseDups, List.mem_filter] at ha
        simp at ha
      rw [hfilter ha] at h
      exact ⟨ha, ih.mp h⟩
    · rintro ⟨ha, hl⟩
      rw [hfilter ha]
      exact ⟨rfl, ih.mpr hl⟩

theorem mem_keysOf : key ∈ keysOf es s ↔ ∃ e ∈ es, e.sectionName = s ∧ e.key = key := by
  simp [keysOf, and_assoc]

/-- No key is assigned twice in any section. -/
theorem nodup_keysOf_iff :
    (∀ s, (keysOf es s).Nodup) ↔ (es.map fun e => (e.sectionName, e.key)).Nodup := by
  induction es with
  | nil => simp [keysOf]
  | cons e es ih =>
    have hcons : ∀ s, keysOf (e :: es) s =
        if e.sectionName = s then e.key :: keysOf es s else keysOf es s := by
      intro s
      unfold keysOf
      rw [List.filter_cons]
      split_ifs <;> simp_all
    have hmem : (e.sectionName, e.key) ∈ es.map (fun e => (e.sectionName, e.key)) ↔
        e.key ∈ keysOf es e.sectionName := by
      rw [mem_keysOf]
      simp
    rw [List.map_cons, List.nodup_cons, hmem, ← ih]
    constructor
    · intro h
      have hself := h e.sectionName
      rw [hcons, if_pos rfl, List.nodup_cons] at hself
      refine ⟨hself.1, fun s => ?_⟩
      have hs := h s
      rw [hcons] at hs
      split_ifs at hs
      · exact hs.of_cons
      · exact hs
    · rintro ⟨hself, h⟩ s
      rw [hcons]
      split_ifs with hs
      · subst hs
        exact List.nodup_cons.mpr ⟨hself, h _⟩
      · exact h s

/-! ### The string of the keys -/

theorem keysOf_concat (e : Entry) :
    keysOf (es ++ [e]) s = keysOf es s ++ if e.sectionName = s then [e.key] else [] := by
  unfold keysOf
  rw [List.filter_append, List.map_append, List.filter_singleton]
  split_ifs <;> simp_all

/-- The map has the keys of every section. -/
def KeyLists (es : List Entry) (kvMap : KvMap) : Prop :=
  ∀ s, 64 ∉ s → kvMap s =
    if keysOf es s = [] then none else some ([44].intercalate (keysOf es s))

theorem intercalate_concat {ks : List (List UInt8)} (hks : ks ≠ []) (k : List UInt8) :
    [44].intercalate (ks ++ [k]) = [44].intercalate ks ++ 44 :: k := by
  obtain ⟨u, us, rfl⟩ := List.exists_cons_of_ne_nil hks
  rw [List.cons_append, intercalate_cons_joined, intercalate_cons_joined, joined_append,
    joined_singleton, List.append_assoc]

theorem itemName_ne_plain (hs : 64 ∉ s) (k s' : List UInt8) : s ≠ itemName k s' := by
  rintro rfl
  exact hs (List.mem_append_right k List.mem_cons_self)

theorem KeyLists.record (h : KeyLists es r.iniKvMap) (hs : 64 ∉ r.sectionName)
    (key value : List UInt8) :
    KeyLists (es ++ [⟨r.sectionName, key, value⟩]) (r.record key value).iniKvMap := by
  intro s hs'
  have hfirst : ∀ s, 64 ∉ s → Function.update r.iniKvMap (itemName key r.sectionName) (some value)
      s = r.iniKvMap s := fun s hs =>
    Function.update_of_ne (itemName_ne_plain hs key r.sectionName) _ _
  rw [keysOf_concat]
  simp only [Reading.record]
  by_cases heq : r.sectionName = s
  · subst heq
    rw [Function.update_self, hfirst _ hs, h _ hs, if_pos rfl]
    by_cases hkeys : keysOf es r.sectionName = []
    · simp [hkeys]
    · simp [hkeys, intercalate_concat hkeys]
  · rw [Function.update_of_ne (Ne.symm heq), hfirst s hs', h s hs', if_neg heq, List.append_nil]

/-- The sections of the items have names without "@". -/
def Placed (es : List Entry) : Prop := ∀ e ∈ es, e.sectionName ≠ [] ∧ 64 ∉ e.sectionName

/-- **A run over plain records.** -/
theorem keyLists_run {ls : List Line} (hplain : ∀ l ∈ ls, l.Plain) (hheaded : Headed ls) :
    ∃ r, ls.foldlM Reading.apply Reading.start = some r ∧
      KeyLists (entries [] ls) r.iniKvMap ∧ Placed (entries [] ls) := by
  refine exists_run (P := fun es kvMap => KeyLists es kvMap ∧ Placed es)
    (N := fun name => name ≠ [] ∧ 64 ∉ name) (K := fun _ _ => True) ?_ ?_ hheaded ?_
    (fun _ _ _ => trivial)
  · intro es r key value h hname _
    refine ⟨h.1.record hname.2 key value, fun e he => ?_⟩
    rcases List.mem_append.mp he with he | he
    · exact h.2 e he
    · rw [List.mem_singleton.mp he]
      exact hname
  · exact ⟨fun _ _ => rfl, fun _ he => nomatch he⟩
  · exact fun name h => ⟨(hplain _ h).1, (hplain _ h).1, (hplain _ h).2.1⟩

/-! ### Listing -/

/-- What a section is split into. -/
def secKeys (es : List Entry) (s : List UInt8) : List (List UInt8) :=
  withoutTrailing (fields [44] (cStr 0 ([44].intercalate (keysOf es s))))

theorem secKeys_eq (hkeys : ∀ k ∈ keysOf es s, k ≠ [] ∧ 44 ∉ k ∧ 0 ∉ k)
    (hne : keysOf es s ≠ []) : secKeys es s = keysOf es s := by
  have hnul : 0 ∉ [44].intercalate (keysOf es s) := by
    obtain ⟨u, us, hus⟩ := List.exists_cons_of_ne_nil hne
    rw [hus, List.forall_mem_cons] at hkeys
    rw [hus, intercalate_cons_joined, joined, List.mem_append, List.mem_flatMap]
    rintro (h0 | ⟨k, hk, h0⟩)
    · exact hkeys.1.2.2 h0
    · rcases List.mem_cons.mp h0 with h0 | h0
      · exact absurd h0 (by decide)
      · exact (hkeys.2 k hk).2.2 h0
  rw [secKeys, cStr_of_not_mem hnul, fields_intercalate hne fun k hk => (hkeys k hk).2.1,
    withoutTrailing, if_neg]
  intro hlast
  exact (hkeys [] (List.mem_of_getLast? hlast)).1 rfl

theorem nulFree_secKeys {k : List UInt8} (hk : k ∈ secKeys es s) : 0 ∉ k := by
  have hfield : k ∈ fields [44] (cStr 0 ([44].intercalate (keysOf es s))) := by
    unfold secKeys withoutTrailing at hk
    split_ifs at hk
    · exact List.mem_of_mem_dropLast hk
    · exact hk
  intro h0
  exact not_mem_cStr _ (subset_of_mem_fields (List.cons_ne_nil 44 []) hfield h0)

/-- **What `IniGetSecValues` does** for a section with items. -/
theorem iniGetSecValues_eq (h : KeyLists es kvMap) (hs : 64 ∉ s) (hne : keysOf es s ≠ [])
    (hname : s ≠ []) (secKv : List SecKeyValue) :
    iniGetSecValues kvMap s secKv =
      if (secKeys es s).length = 0 then .ok (-1, [])
      else .ok (0, (secKeys es s).map fun key => ⟨key, iniGetValue kvMap s key⟩) := by
  unfold iniGetSecValues
  rw [if_neg hname, h s hs, if_neg hne]
  simp only [splitChar_eq (not_mem_cStr _), ok_bind]
  rfl

/-- A section without items is not listed. -/
theorem iniGetSecValues_none (h : KeyLists es kvMap) (hs : 64 ∉ s) (hnil : keysOf es s = [])
    (secKv : List SecKeyValue) : ∃ kv, iniGetSecValues kvMap s secKv = .ok (-1, kv) := by
  unfold iniGetSecValues
  rw [h s hs, if_pos hnil]
  split_ifs
  · exact ⟨secKv, rfl⟩
  · exact ⟨[], rfl⟩

/-- **When the sections are listed right.** -/
theorem lists_iff (h : KeyLists es kvMap) (hplaced : Placed es)
    (hkeys : ∀ e ∈ es, e.key ≠ [] ∧ 44 ∉ e.key) :
    Lists es kvMap ↔
      (es.map fun e => (e.sectionName, e.key)).Nodup ∧ ∀ e ∈ es, 0 ∉ e.key := by
  have hplain : ∀ s, ∀ k ∈ keysOf es s, k ≠ [] ∧ 44 ∉ k := by
    intro s k hk
    obtain ⟨e, he, -, rfl⟩ := mem_keysOf.mp hk
    exact hkeys e he
  have hsection : ∀ s, keysOf es s ≠ [] → s ≠ [] ∧ 64 ∉ s := by
    intro s hne
    obtain ⟨k, hk⟩ := List.exists_mem_of_ne_nil _ hne
    obtain ⟨e, he, rfl, -⟩ := mem_keysOf.mp hk
    exact hplaced e he
  rw [← nodup_keysOf_iff]
  constructor
  · intro hlists
    have hsame : ∀ s, keysOf es s ≠ [] → secKeys es s = (keysOf es s).eraseDups := by
      intro s hne
      obtain ⟨hname, hs⟩ := hsection s hne
      obtain ⟨ret, kv, hcall, hret, hkv⟩ := hlists s hs []
      rw [iniGetSecValues_eq h hs hne hname] at hcall
      have hzero : ret = 0 := hret.mpr hne
      subst hzero
      split_ifs at hcall
      · cases hcall
      · have hkv' := (Prod.mk.inj (Except.ok.inj hcall)).2.trans (hkv rfl)
        have hmap := congrArg (List.map SecKeyValue.key) hkv'
        simpa [Function.comp_def] using hmap
    have hnul : ∀ s, ∀ k ∈ keysOf es s, 0 ∉ k := by
      intro s k hk
      have hlisted : k ∈ secKeys es s := by
        rw [hsame s (List.ne_nil_of_mem hk)]
        exact List.mem_eraseDups.mpr hk
      exact nulFree_secKeys hlisted
    refine ⟨fun s => ?_, fun e he => hnul e.sectionName e.key (mem_keysOf.mpr ⟨e, he, rfl, rfl⟩)⟩
    by_cases hnil : keysOf es s = []
    · rw [hnil]
      exact List.nodup_nil
    · have hfull := secKeys_eq
        (fun k hk => ⟨(hplain s k hk).1, (hplain s k hk).2, hnul s k hk⟩) hnil
      exact eraseDups_eq_self_iff.mp ((hsame s hnil).symm.trans hfull)
  · rintro ⟨hnodup, hnul⟩ s hs secKv
    by_cases hnil : keysOf es s = []
    · obtain ⟨kv, hcall⟩ := iniGetSecValues_none h hs hnil secKv
      exact ⟨-1, kv, hcall, by simp [hnil], fun h => absurd h (by decide)⟩
    · obtain ⟨hname, -⟩ := hsection s hnil
      have hfull : secKeys es s = keysOf es s := by
        refine secKeys_eq (fun k hk => ⟨(hplain s k hk).1, (hplain s k hk).2, ?_⟩) hnil
        obtain ⟨e, he, -, rfl⟩ := mem_keysOf.mp hk
        exact hnul e he
      refine ⟨0, _, ?_, iff_of_true rfl hnil, fun _ => rfl⟩
      rw [iniGetSecValues_eq h hs hnil hname, hfull, eraseDups_eq_self_iff.mpr (hnodup s),
        if_neg (mt List.length_eq_zero_iff.mp hnil)]
      refine congrArg (fun kv => Except.ok (0, kv)) (List.map_congr_left fun k hk => ?_)
      exact congrArg (SecKeyValue.mk k) (iniGetStrValue_nil kvMap hname (hplain s k hk).1).symm

/-- **Sections that are listed right**: no key is assigned twice in a section, and
none is cut at a NUL. -/
theorem sections_listed_iff (ls : List Line) (hplain : ∀ l ∈ ls, l.Plain) (hheaded : Headed ls) :
    (∃ r, ls.foldlM Reading.apply Reading.start = some r ∧
      Lists (entries [] ls) r.iniKvMap) ↔
    ((entries [] ls).map fun e => (e.sectionName, e.key)).Nodup ∧
      ∀ e ∈ entries [] ls, 0 ∉ e.key := by
  obtain ⟨r, hrun, hkeyLists, hplaced⟩ := keyLists_run hplain hheaded
  have hiff := lists_iff hkeyLists hplaced fun e he =>
    have hitem := hplain _ (mem_of_mem_entries he)
    ⟨hitem.1, hitem.2.2⟩
  rw [← hiff]
  constructor
  · rintro ⟨r', hrun', hlists⟩
    obtain rfl := Option.some.inj (hrun.symm.trans hrun')
    exact hlists
  · intro hlists
    exact ⟨r, hrun, hlists⟩

/-- A section "s" with the keys "a" and "b". -/
theorem sections_listed_iff_two :
    ∃ r, [.header [115], .item [97] [49], .item [98] [50]].foldlM Reading.apply Reading.start =
        some r ∧ Lists [⟨[115], [97], [49]⟩, ⟨[115], [98], [50]⟩] r.iniKvMap := by
  refine (sections_listed_iff [.header [115], .item [97] [49], .item [98] [50]] ?_ ?_).mpr ?_
  · simp [Line.Plain]
  · intro l hl
    exact ⟨[115], (Option.some.inj hl).symm⟩
  · decide

/-- In a section "s" the key "k" is assigned twice, and it is listed twice. -/
theorem sections_listed_twice :
    ([.header [115], .item [107] [49], .item [107] [50]].foldlM Reading.apply Reading.start).map
      (fun r => iniGetSecValues r.iniKvMap [115] []) =
        some (.ok (0, [⟨[107], [50]⟩, ⟨[107], [50]⟩])) := by
  rfl

end IniFileReader

end Xkim
