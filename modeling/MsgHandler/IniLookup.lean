/-
MsgHandler/IniLookup.lean

Looking up what has been read from a configuration file.

An item is found under "key@section", and the keys of a section under its name.
Different items have the same name if an "@" stands inside the key or the name
of the section: the key "a@b" of "c" is the key "a" of "b@c".  Whether this
can happen is only a matter of the single lines.  Every file over a vocabulary
of lines is read back iff every line of the vocabulary is clean
(`readsBack_iff`); a line that is not clean is exposed by a file of two lines
(`clean_of_readsBack`).
-/
import MsgHandler.IniFile

namespace Xkim

namespace IniFileReader

open StringAlgorithms

/-- An item with the section it stands in. -/
structure Entry where
  sectionName : List UInt8
  key : List UInt8
  value : List UInt8
  deriving DecidableEq, Repr

/-- The items of a file, below a section. -/
def entries : List UInt8 → List Line → List Entry
  | _, [] => []
  | _, .header name :: ls => entries name ls
  | sectionName, .item key value :: ls => ⟨sectionName, key, value⟩ :: entries sectionName ls

/-- The value of the last item for the key in the section. -/
def lastValue (es : List Entry) (sectionName key : List UInt8) : Option (List UInt8) :=
  (es.reverse.find? fun e => e.sectionName = sectionName ∧ e.key = key).map Entry.value

/-- The file is accepted, and every look-up gives the last value. -/
def ReadsBack (ls : List Line) : Prop :=
  ∀ file, file = fileText ls ∨ file = (fileText ls).dropLast →
    ∃ kvMap, iniFileReader file = some kvMap ∧
      ∀ sectionName key defaultValue, sectionName ≠ [] → key ≠ [] →
        iniGetStrValue kvMap sectionName key defaultValue =
          (lastValue (entries [] ls) sectionName key).getD defaultValue

variable {name key value : List UInt8} {r : Reading}

/-! ### Names -/

theorem mem_dropLast_of_append {a b : List UInt8} (hb : b ≠ []) :
    (64 : UInt8) ∈ (a ++ 64 :: b).dropLast := by
  rw [List.dropLast_append_of_ne_nil (List.cons_ne_nil 64 b), List.dropLast_cons_of_ne_nil hb]
  exact List.mem_append_right a List.mem_cons_self

theorem mem_tail_of_append {a b : List UInt8} (ha : a ≠ []) :
    (64 : UInt8) ∈ (a ++ 64 :: b).tail := by
  rw [List.tail_append_of_ne_nil ha]
  exact List.mem_append_right _ List.mem_cons_self

variable {sectionName s k : List UInt8}

/-- **The names of items** are distinct. -/
theorem itemName_eq_iff (hs : 64 ∉ sectionName.dropLast) (hk : 64 ∉ key.tail) (hs' : s ≠ [])
    (hk' : k ≠ []) : itemName k s = itemName key sectionName ↔ sectionName = s ∧ key = k := by
  constructor
  · intro h
    rcases append_cons_cases h with ⟨rfl, rfl⟩ | ⟨e, rfl, -⟩ | ⟨e, -, rfl⟩
    · exact ⟨rfl, rfl⟩
    · exact absurd (mem_tail_of_append hk') hk
    · exact absurd (mem_dropLast_of_append hs') hs
  · rintro ⟨rfl, rfl⟩
    rfl

/-- The name of a section is not that of an item. -/
theorem itemName_ne (hs : 64 ∉ sectionName.dropLast) (hs' : s ≠ []) :
    itemName k s ≠ sectionName := by
  rintro rfl
  exact hs (mem_dropLast_of_append hs')

/-! ### The map -/

theorem lastValue_concat (es : List Entry) (e : Entry) :
    lastValue (es ++ [e]) s k =
      if e.sectionName = s ∧ e.key = k then some e.value else lastValue es s k := by
  unfold lastValue
  rw [List.reverse_append, List.reverse_singleton, List.singleton_append, List.find?_cons]
  by_cases h : e.sectionName = s ∧ e.key = k
  · rw [if_pos h, decide_eq_true h]
    rfl
  · rw [if_neg h, decide_eq_false h]

/-- The map has the last value of every item. -/
def Holds (es : List Entry) (kvMap : KvMap) : Prop :=
  ∀ s k, s ≠ [] → k ≠ [] → kvMap (itemName k s) = lastValue es s k

variable {es : List Entry}

theorem Holds.record (h : Holds es r.iniKvMap) (hs : 64 ∉ r.sectionName.dropLast)
    (hk : 64 ∉ key.tail) (value : List UInt8) :
    Holds (es ++ [⟨r.sectionName, key, value⟩]) (r.record key value).iniKvMap := by
  intro s k hs' hk'
  rw [lastValue_concat]
  show Function.update (Function.update r.iniKvMap _ _) _ _ _ = _
  rw [Function.update_of_ne (itemName_ne hs hs')]
  by_cases heq : r.sectionName = s ∧ key = k
  · rw [if_pos heq, (itemName_eq_iff hs hk hs' hk').mpr heq, Function.update_self]
  · rw [if_neg heq, Function.update_of_ne (mt (itemName_eq_iff hs hk hs' hk').mp heq)]
    exact h s k hs' hk'

/-- **The rule for a run**, which is about the items and the map: `N` is what
the names of the sections have, and `K` the items. -/
theorem exists_run {P : List Entry → KvMap → Prop} {N : List UInt8 → Prop}
    {K : List UInt8 → List UInt8 → Prop} {ls : List Line}
    (keep : ∀ es (r : Reading) key value, P es r.iniKvMap → N r.sectionName → K key value →
      P (es ++ [⟨r.sectionName, key, value⟩]) (r.record key value).iniKvMap)
    (hstart : P [] Reading.start.iniKvMap) (hheaded : Headed ls)
    (hheader : ∀ name, .header name ∈ ls → name ≠ [] ∧ N name)
    (hitem : ∀ key value, .item key value ∈ ls → K key value) :
    ∃ r, ls.foldlM Reading.apply Reading.start = some r ∧ P (entries [] ls) r.iniKvMap := by
  have hbelow : ∀ (ls' : List Line) (r : Reading) (es : List Entry), ls' ⊆ ls →
      P es r.iniKvMap → r.sectionName ≠ [] → N r.sectionName →
      ∃ r', ls'.foldlM Reading.apply r = some r' ∧
        P (es ++ entries r.sectionName ls') r'.iniKvMap := by
    intro ls'
    induction ls' with
    | nil =>
      intro r es _ hP _ _
      exact ⟨r, rfl, by rwa [entries, List.append_nil]⟩
    | cons l ls' ih =>
      intro r es hls' hP hne hN
      rw [List.cons_subset] at hls'
      rw [List.foldlM_cons]
      cases l with
      | header name =>
        obtain ⟨hne', hN'⟩ := hheader name hls'.1
        exact ih (r.enter name) es hls'.2 hP hne' hN'
      | item key value =>
        have happly : r.apply (.item key value) = some (r.record key value) := if_neg hne
        have hkept := keep es r key value hP hN (hitem key value hls'.1)
        obtain ⟨r', hrun, hP'⟩ := ih (r.record key value) _ hls'.2 hkept hne hN
        rw [List.append_assoc] at hP'
        refine ⟨r', ?_, hP'⟩
        rw [happly]
        exact hrun
  rcases ls with - | ⟨l, ls⟩
  · exact ⟨Reading.start, rfl, hstart⟩
  · obtain ⟨name, rfl⟩ := hheaded l rfl
    obtain ⟨hne, hN⟩ := hheader name List.mem_cons_self
    exact hbelow ls (Reading.start.enter name) [] (List.subset_cons_self _ _) hstart hne hN

theorem mem_of_mem_entries {ls : List Line} {e : Entry} (h : e ∈ entries sectionName ls) :
    Line.item e.key e.value ∈ ls := by
  induction ls generalizing sectionName with
  | nil => cases h
  | cons l ls ih =>
    cases l with
    | header name => exact List.mem_cons_of_mem _ (ih h)
    | item key value =>
      rcases List.mem_cons.mp h with rfl | h
      · exact List.mem_cons_self
      · exact List.mem_cons_of_mem _ (ih h)

theorem iniGetStrValue_eq {kvMap : KvMap} {ls : List Line} (hvalid : ∀ l ∈ ls, l.Valid)
    (h : Holds (entries sectionName ls) kvMap) (hs : s ≠ []) (hk : k ≠ [])
    (defaultValue : List UInt8) :
    iniGetStrValue kvMap s k defaultValue =
      (lastValue (entries sectionName ls) s k).getD defaultValue := by
  rw [iniGetStrValue, if_neg (not_or.mpr ⟨hs, hk⟩), iniGetValue, h s k hs hk]
  rcases hlast : lastValue (entries sectionName ls) s k with - | v
  · rfl
  · obtain ⟨e, he, rfl⟩ := Option.map_eq_some_iff.mp hlast
    have hmem := mem_of_mem_entries (List.mem_reverse.mp (List.mem_of_find?_eq_some he))
    exact if_neg (hvalid _ hmem).2.2.2.1

theorem readsBack_of_clean {ls : List Line} (hvalid : ∀ l ∈ ls, l.Valid)
    (hclean : ∀ l ∈ ls, l.Clean) (hheaded : Headed ls) : ReadsBack ls := by
  intro file hfile
  rw [iniFileReader_eq hvalid hclean hfile]
  obtain ⟨r, hrun, hholds⟩ := exists_run (P := Holds) (N := fun name => 64 ∉ name.dropLast)
    (K := fun key _ => 64 ∉ key.tail) (fun _ _ _ value h hs hk => h.record hs hk value)
    (fun _ _ _ _ => rfl) hheaded
    (fun name h => ⟨(hvalid _ h).1, (hclean _ h).2⟩) (fun key value h => (hclean _ h).2.2.1)
  rw [hrun]
  exact ⟨r.iniKvMap, rfl, fun s k d hs hk => iniGetStrValue_eq hvalid hholds hs hk d⟩

/-! ### Lines that are not clean -/

/-- No string in the state has a NUL. -/
def Reading.NulFree (r : Reading) : Prop :=
  0 ∉ r.sectionName ∧ ∀ name value, r.iniKvMap name = some value → 0 ∉ name ∧ 0 ∉ value

namespace Reading

variable {r' : Reading}

theorem NulFree.record (h : r.NulFree) (hkey : 0 ∉ key) (hvalue : 0 ∉ value) :
    (r.record key value).NulFree := by
  have hname : 0 ∉ itemName key r.sectionName := by
    intro h0
    rcases List.mem_append.mp h0 with h0 | h0
    · exact hkey h0
    · rcases List.mem_cons.mp h0 with h0 | h0
      · exact absurd h0 (by decide)
      · exact h.1 h0
  have hmap : ∀ name v, Function.update r.iniKvMap (itemName key r.sectionName) (some value) name =
      some v → 0 ∉ name ∧ 0 ∉ v := by
    intro name v hv
    by_cases heq : name = itemName key r.sectionName
    · rw [heq, Function.update_self] at hv
      rw [heq, ← Option.some.inj hv]
      exact ⟨hname, hvalue⟩
    · rw [Function.update_of_ne heq] at hv
      exact h.2 name v hv
  refine ⟨h.1, fun name v hv => ?_⟩
  by_cases heq : name = r.sectionName
  · subst heq
    refine ⟨h.1, ?_⟩
    simp only [Reading.record, Function.update_self, Option.some.injEq] at hv
    rw [← hv]
    split
    · exact hkey
    · next keys hkeys =>
      intro h0
      rcases List.mem_append.mp h0 with h0 | h0
      · exact (hmap _ _ hkeys).2 h0
      · rcases List.mem_cons.mp h0 with h0 | h0
        · exact absurd h0 (by decide)
        · exact hkey h0
  · simp only [Reading.record, Function.update_of_ne heq] at hv
    exact hmap name v hv

theorem not_mem_capture {ps : List (Piece UInt8)} {line : List UInt8} {m : List (List UInt8)}
    (h : search ps line = some m) (hline : 0 ∉ line) (i : ℕ) : 0 ∉ m.getD i [] := by
  intro h0
  by_cases hi : i < m.length
  · rw [List.getD_eq_getElem _ _ hi] at h0
    exact hline (mem_of_search h (List.getElem_mem hi) h0)
  · rw [List.getD_eq_default _ _ (Nat.le_of_not_lt hi)] at h0
    cases h0

theorem NulFree.parse {line : List UInt8} (h : r.NulFree) (hline : 0 ∉ line)
    (hr : r.parse line = some r') : r'.NulFree := by
  unfold Reading.parse at hr
  split at hr
  · next m hm =>
    obtain rfl := Option.some.inj hr
    exact ⟨not_mem_capture hm hline 0, h.2⟩
  · split at hr
    · next m hm =>
      unfold Reading.item at hr
      split_ifs at hr
      obtain rfl := Option.some.inj hr
      exact h.record (not_mem_capture hm hline 0) (not_mem_capture hm hline 1)
    · cases hr

/-- **A line is read as a C string.** -/
theorem NulFree.readLine {line : List UInt8} (h : r.NulFree) (hr : r.readLine line = some r') :
    r'.NulFree := by
  unfold Reading.readLine at hr
  dsimp only at hr
  split at hr
  · obtain rfl := Option.some.inj hr
    exact h
  · split_ifs at hr
    · obtain rfl := Option.some.inj hr
      exact h
    · exact h.parse (not_mem_cStr line) hr

theorem nulFree_start : start.NulFree := ⟨List.not_mem_nil, fun _ _ h => nomatch h⟩

end Reading

/-- A section with one item. -/
theorem iniFileReader_pair (hheader : (Line.header name).Valid)
    (hitem : (Line.item key value).Valid) :
    iniFileReader (fileText [.header name, .item key value]) =
      ((Reading.start.readLine ((Line.header name).text ++ [10])).bind fun r =>
        r.readLine ((Line.item key value).text ++ [10])).map Reading.iniKvMap := by
  have hvalid : ∀ l ∈ [Line.header name, .item key value], l.Valid := by
    simp [hheader, hitem]
  have hlines := fileLines_fileText_append hvalid []
  rw [List.append_nil] at hlines
  rw [iniFileReader, hlines]
  refine congrArg _ ?_
  show (_ >>= fun r => _ >>= pure) = _
  simp only [bind_pure]
  rfl

theorem lastValue_singleton (e : Entry) :
    lastValue [e] s k = if e.sectionName = s ∧ e.key = k then some e.value else none :=
  lastValue_concat [] e

theorem iniGetStrValue_nil (kvMap : KvMap) (hs : s ≠ []) (hk : k ≠ []) :
    iniGetStrValue kvMap s k [] = (kvMap (itemName k s)).getD [] := by
  rw [iniGetStrValue, if_neg (not_or.mpr ⟨hs, hk⟩), iniGetValue]
  exact ite_eq_right_iff.mpr Eq.symm

/-- **A file of two lines** is read back only if they are clean. -/
theorem clean_of_readsBack (hheader : (Line.header name).Valid)
    (hitem : (Line.item key value).Valid) (h : ReadsBack [.header name, .item key value]) :
    (Line.header name).Clean ∧ (Line.item key value).Clean := by
  obtain ⟨kvMap, hread, hlookup⟩ := h _ (Or.inl rfl)
  rw [iniFileReader_pair hheader hitem] at hread
  obtain ⟨r, hr, rfl⟩ := Option.map_eq_some_iff.mp hread
  obtain ⟨r₁, hr₁, hr⟩ := Option.bind_eq_some_iff.mp hr
  obtain ⟨hkey, -, -, hvalue, -⟩ := id hitem
  have hmap : ∀ s k, s ≠ [] → k ≠ [] → (r.iniKvMap (itemName k s)).getD [] =
      if name = s ∧ key = k then value else [] := by
    intro s k hs hk
    rw [← iniGetStrValue_nil _ hs hk, hlookup s k [] hs hk]
    show (lastValue [⟨name, key, value⟩] s k).getD [] = _
    rw [lastValue_singleton]
    split_ifs <;> rfl
  -- the value is found under its name, and under no other name
  have hfound : r.iniKvMap (itemName key name) = some value := by
    have hget := hmap name key hheader.1 hkey
    rw [if_pos ⟨rfl, rfl⟩] at hget
    rcases hv : r.iniKvMap (itemName key name) with - | v
    · rw [hv] at hget
      exact absurd hget.symm hvalue
    · rw [hv] at hget
      exact congrArg some hget
  have hother : ∀ s k, s ≠ [] → k ≠ [] → itemName k s = itemName key name → name = s := by
    intro s k hs hk heq
    have hget := hmap s k hs hk
    rw [heq, hfound] at hget
    by_contra hne
    rw [if_neg fun h => hne h.1] at hget
    exact hvalue hget
  have hnul := ((Reading.nulFree_start.readLine hr₁).readLine hr).2 _ _ hfound
  have hname : 0 ∉ name := fun h0 =>
    hnul.1 (List.mem_append_right key (List.mem_cons_of_mem 64 h0))
  have hkey0 : 0 ∉ key := fun h0 => hnul.1 (List.mem_append_left _ h0)
  rw [Reading.readLine_header hheader hname (Or.inr rfl)] at hr₁
  obtain rfl := Option.some.inj hr₁
  refine ⟨⟨hname, ?_⟩, hkey0, hnul.2, ?_, ?_⟩
  · -- the key and the first part of the name are a key of the second part
    intro hat
    obtain ⟨a, b, hab⟩ := List.append_of_mem hat
    have hsplit : name = a ++ 64 :: (b ++ [name.getLast hheader.1]) := by
      conv_lhs => rw [← List.dropLast_append_getLast hheader.1, hab]
      simp
    have hsame := hother (b ++ [name.getLast hheader.1]) (itemName key a) (by simp)
      (by simp [itemName]) (by rw [itemName, itemName, itemName, List.append_assoc,
        List.cons_append, ← hsplit])
    have hlen := congrArg List.length (hsplit.symm.trans hsame)
    simp at hlen
    omega
  · -- the first part of the key is a key of the second part and the name
    intro hat
    obtain ⟨c, cs, rfl⟩ := List.exists_cons_of_ne_nil hkey
    obtain ⟨a, b, hab⟩ := List.append_of_mem hat
    have hsame := hother (itemName b name) (c :: a) (by simp [itemName]) (by simp)
      (by rw [List.tail_cons] at hab; simp [itemName, hab])
    have hlen := congrArg List.length hsame
    simp [itemName] at hlen
    omega
  · -- the line has opened a section, and the map is empty
    intro hbrackets
    obtain ⟨_, hopened⟩ := Reading.readLine_brackets hitem hkey0 hnul.2 (Or.inr rfl) hbrackets
      (Reading.start.enter name)
    rw [hopened] at hr
    obtain rfl := Option.some.inj hr
    cases hfound

/-- **Files that are read back.**  Every file over the lines of `A` is read back
iff all of them are clean. -/
theorem readsBack_iff (A : Set Line) (hvalid : ∀ l ∈ A, l.Valid)
    (hheader : ∃ name, Line.header name ∈ A) (hitem : ∃ key value, Line.item key value ∈ A) :
    (∀ ls : List Line, (∀ l ∈ ls, l ∈ A) → Headed ls → ReadsBack ls) ↔ ∀ l ∈ A, l.Clean := by
  obtain ⟨name, hname⟩ := hheader
  obtain ⟨key, value, hkey⟩ := hitem
  constructor
  · intro h
    have hpair : ∀ name key value, Line.header name ∈ A → Line.item key value ∈ A →
        (Line.header name).Clean ∧ (Line.item key value).Clean := by
      intro name key value hname hkey
      refine clean_of_readsBack (hvalid _ hname) (hvalid _ hkey) (h _ ?_ ?_)
      · simp [hname, hkey]
      · intro l hl
        exact ⟨name, (Option.some.inj hl).symm⟩
    intro l hl
    cases l with
    | header name' => exact (hpair name' key value hl hkey).1
    | item key' value' => exact (hpair name key' value' hname hl).2
  · intro hclean ls hls hheaded
    exact readsBack_of_clean (fun l hl => hvalid l (hls l hl)) (fun l hl => hclean l (hls l hl))
      hheaded

/-- The sections "s" and "t", both with a key "k". -/
def twoSections : List Line :=
  [.header [115], .item [107] [118], .item [106] [119], .header [116], .item [107] [120]]

/-- The files over the lines of `twoSections`, and the file itself. -/
theorem readsBack_iff_plain : ReadsBack twoSections := by
  have hitem : ∀ {k v : UInt8}, ¬ isspace k ∧ k ≠ 61 ∧ k ≠ 91 → k ≠ 35 → ¬ isspace v →
      (Line.item [k] [v]).Valid := fun hk hhash hv =>
    ⟨List.cons_ne_nil _ _, List.forall_mem_singleton.mpr hk, fun h => hhash (Option.some.inj h),
      List.cons_ne_nil _ _, List.forall_mem_singleton.mpr hv⟩
  refine (readsBack_iff {l | l ∈ twoSections} ?_ ⟨[115], List.mem_cons_self⟩
    ⟨[107], [118], List.mem_cons_of_mem _ List.mem_cons_self⟩).mpr ?_ _ (fun _ hl => hl) ?_
  · refine List.forall_mem_cons.mpr ⟨⟨by decide, by decide, by decide⟩, ?_⟩
    refine List.forall_mem_cons.mpr ⟨hitem (by decide) (by decide) (by decide), ?_⟩
    refine List.forall_mem_cons.mpr ⟨hitem (by decide) (by decide) (by decide), ?_⟩
    refine List.forall_mem_cons.mpr ⟨⟨by decide, by decide, by decide⟩, ?_⟩
    exact List.forall_mem_singleton.mpr (hitem (by decide) (by decide) (by decide))
  · refine List.forall_mem_cons.mpr ⟨⟨by decide, by decide⟩, ?_⟩
    refine List.forall_mem_cons.mpr ⟨⟨by decide, by decide, by decide, by decide⟩, ?_⟩
    refine List.forall_mem_cons.mpr ⟨⟨by decide, by decide, by decide, by decide⟩, ?_⟩
    refine List.forall_mem_cons.mpr ⟨⟨by decide, by decide⟩, ?_⟩
    exact List.forall_mem_singleton.mpr ⟨by decide, by decide, by decide, by decide⟩
  · intro l hl
    exact ⟨[115], (Option.some.inj hl).symm⟩

/-- In "[s]" and "k = [x]" the second line is taken for a section; and with "[a@b]"
and "k = v", "v" is found as "k@a" in "b". -/
theorem readsBack_brackets_at :
    (iniFileReader (fileText [.header [115], .item [107] [91, 120, 93]])).map
      (iniGetStrValue · [115] [107] []) = some [] ∧
    (iniFileReader (fileText [.header [97, 64, 98], .item [107] [118]])).map
      (iniGetStrValue · [98] [107, 64, 97] []) = some [118] := by
  decide

end IniFileReader

end Xkim
