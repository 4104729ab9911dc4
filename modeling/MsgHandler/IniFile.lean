/-
MsgHandler/IniFile.lean

The reader of configuration files (`framework/lib/ini_file_reader.cpp`).

The constructor reads a file line by line and keeps everything in one map from
strings to strings.  An item "key = value" of a section is kept under the name
"key@section", and under the name of the section stands the list of its keys:

    ini_kv_map[item_key + "@" + section_name] = item_value;
    ini_kv_map[section_name] += "," + item_key;

A line is taken for a section line if it has a "[" and a "]" behind it,
wherever they stand, before it is looked at as an item.  Here the constructor
is followed from the file to its lines and from a line to what is captured in
it: a file of clean lines does what its lines are meant to do
(`iniFileReader_eq`).
-/
import MsgHandler.Pattern
import MsgHandler.Split
import MsgHandler.Trim

namespace Xkim

namespace IniFileReader

open StringAlgorithms

/-- `"\\s*\\[(.*?)\\]\\s*.*"`. -/
def patternSection : List (Piece UInt8) :=
  [.many isspace .greedy false, .one (· = 91), .many (· ≠ 10) .reluctant true, .one (· = 93),
    .many isspace .greedy false, .many (· ≠ 10) .greedy false]

/-- `[^\\s\\r\\=]`. -/
def keyChar (c : UInt8) : Bool := !isspace c && c ≠ 13 && c ≠ 61

/-- `[^\\s\\r\\n]`. -/
def valueChar (c : UInt8) : Bool := !isspace c && c ≠ 13 && c ≠ 10

/-- `"\\s*([^\\s\\r\\=]*?)\\s*\\=\\s*([^\\s\\r\\n]*?)([\\r\\n\\s]*)$"`. -/
def patternItem : List (Piece UInt8) :=
  [.many isspace .greedy false, .many keyChar .reluctant true, .many isspace .greedy false,
    .one (· = 61), .many isspace .greedy false, .many valueChar .reluctant true,
    .many (fun c => c = 13 || c = 10 || isspace c) .greedy true, .lineEnd 10]

/-- `ini_kv_map`. -/
abbrev KvMap := List UInt8 → Option (List UInt8)

/-- What the constructor has read: the section that is open, and the map. -/
structure Reading where
  sectionName : List UInt8
  iniKvMap : KvMap

/-- `item_key + SEC_KEY_DELIM_STR + section_name`. -/
def itemName (itemKey sectionName : List UInt8) : List UInt8 := itemKey ++ 64 :: sectionName

namespace Reading

/-- The state at the start. -/
def start : Reading := ⟨[], fun _ => none⟩

/-- The value is kept, and the key is added to those of the section. -/
def record (r : Reading) (itemKey itemValue : List UInt8) : Reading :=
  let kvMap := Function.update r.iniKvMap (itemName itemKey r.sectionName) (some itemValue)
  let keys := match kvMap r.sectionName with
    | none => itemKey
    | some keys => keys ++ 44 :: itemKey
  { r with iniKvMap := Function.update kvMap r.sectionName (some keys) }

/-- A section line. -/
def enter (r : Reading) (name : List UInt8) : Reading := { r with sectionName := name }

/-- An item line; outside a section the process exits. -/
def item (r : Reading) (itemKey itemValue : List UInt8) : Option Reading :=
  if r.sectionName = [] then none else some (r.record itemKey itemValue)

/-- A line that is neither empty nor a comment; `none` if the process exits. -/
def parse (r : Reading) (line : List UInt8) : Option Reading :=
  match search patternSection line with
  | some m => some (r.enter (m.getD 0 []))
  | none =>
    match search patternItem line with
    | some m => r.item (m.getD 0 []) (m.getD 1 [])
    | none => none

/-- The characters that `start` skips. -/
def skipped (c : UInt8) : Bool := c = 32 || c = 10 || c = 9 || c = 13

/-- One turn of the loop, with the line from `getline`. -/
def readLine (r : Reading) (lineRead : List UInt8) : Option Reading :=
  let line := cStr 0 lineRead
  match line.dropWhile skipped with
  | [] => some r
  | c :: _ => if c = 35 then some r else r.parse line

end Reading

/-- What `getline` returns one after the other, with the newlines. -/
def fileLines : List UInt8 → List (List UInt8)
  | [] => []
  | c :: file =>
    if c = 10 then [c] :: fileLines file
    else match fileLines file with
      | [] => [[c]]
      | line :: lines => (c :: line) :: lines

/-- The constructor, for the contents of the file. -/
def iniFileReader (file : List UInt8) : Option KvMap :=
  ((fileLines file).foldlM Reading.readLine Reading.start).map Reading.iniKvMap

/-- `IniGetValue`. -/
def iniGetValue (kvMap : KvMap) (sectionName itemKey : List UInt8) : List UInt8 :=
  (kvMap (itemName itemKey sectionName)).getD []

/-- `IniGetStrValue`. -/
def iniGetStrValue (kvMap : KvMap) (sectionName itemKey defaultValue : List UInt8) : List UInt8 :=
  if sectionName = [] ∨ itemKey = [] then []
  else
    let itemValue := iniGetValue kvMap sectionName itemKey
    if itemValue = [] then defaultValue else itemValue

/-! ### Files -/

/-- A line of a configuration file. -/
inductive Line
  | header (name : List UInt8)
  | item (key value : List UInt8)
  deriving DecidableEq, Repr

/-- "[name]" and "key = value". -/
def Line.text : Line → List UInt8
  | .header name => 91 :: name ++ [93]
  | .item key value => key ++ 32 :: 61 :: 32 :: value

/-- The file with these lines.  The last newline may be missing. -/
def fileText (ls : List Line) : List UInt8 := ls.flatMap fun l => l.text ++ [10]

/-- The lines the reader is meant for. -/
def Line.Valid : Line → Prop
  | .header name => name ≠ [] ∧ 93 ∉ name ∧ 10 ∉ name
  | .item key value => key ≠ [] ∧ (∀ c ∈ key, ¬ isspace c ∧ c ≠ 61 ∧ c ≠ 91) ∧
      key.head? ≠ some 35 ∧ value ≠ [] ∧ ∀ c ∈ value, ¬ isspace c

/-- A file begins with a section line. -/
def Headed (ls : List Line) : Prop := ∀ l ∈ ls.head?, ∃ name, l = .header name

/-- No string is cut at a NUL, no value has a "[" before a "]", and an "@"
stands only at the beginning of a key or at the end of the name of a section. -/
def Line.Clean : Line → Prop
  | .header name => 0 ∉ name ∧ 64 ∉ name.dropLast
  | .item key value => 0 ∉ key ∧ 0 ∉ value ∧ 64 ∉ key.tail ∧ ¬ List.Sublist [91, 93] value

/-! ### Single lines -/

variable {name key value nl : List UInt8} {r : Reading}

/-- What may follow a line. -/
def Newline (nl : List UInt8) : Prop := nl = [] ∨ nl = [10]

theorem Newline.isspace (hnl : Newline nl) : ∀ c ∈ nl, isspace c := by
  rcases hnl with rfl | rfl
  · exact fun c hc => nomatch hc
  · intro c hc
    rw [List.mem_singleton.mp hc]
    rfl

/-- **A section line.** -/
theorem search_header (hvalid : (Line.header name).Valid) (hnl : Newline nl) :
    search patternSection ((Line.header name).text ++ nl) = some [name] := by
  obtain ⟨-, hfree, hnewline⟩ := hvalid
  have hend : matchAt [.many isspace .greedy false, .many (· ≠ 10) .greedy false] nl = some [] := by
    rcases hnl with rfl | rfl <;> rfl
  have hclose : matchAt (patternSection.drop 3) (93 :: nl) = some [] :=
    (matchAt_one rfl).trans hend
  have hname : matchAt (patternSection.drop 2) (name ++ 93 :: nl) = some [name] := by
    refine matchAt_reluctant ?_ ?_ hclose
    · intro c hc
      exact decide_eq_true fun h => hnewline (h ▸ hc)
    · intro a b hab hb
      obtain ⟨c, b, rfl⟩ := List.exists_cons_of_ne_nil hb
      refine matchAt_one_eq_none ?_
      intro h
      refine hfree ?_
      rw [hab, ← of_decide_eq_true h]
      exact List.mem_append_right a List.mem_cons_self
  have hopen : matchAt (patternSection.drop 1) (91 :: (name ++ 93 :: nl)) = some [name] :=
    (matchAt_one rfl).trans hname
  refine search_of_matchAt ?_
  have htext : (Line.header name).text ++ nl = [] ++ 91 :: (name ++ 93 :: nl) := by
    simp [Line.text]
  rw [htext]
  refine matchAt_greedy (fun c hc => nomatch hc) ?_ hopen
  intro c hc
  rw [← Option.some.inj hc]
  decide

/-- A line is taken for a section line if it has a "[" before a "]". -/
theorem sublist_of_search {line : List UInt8} (h : (search patternSection line).isSome) :
    List.Sublist [91, 93] line := by
  obtain ⟨t, ht, hmatch⟩ := search_isSome.mp h
  obtain ⟨u, t, rfl, -, hmatch⟩ := matchAt_many_isSome.mp hmatch
  obtain ⟨c, t, rfl, hc, hmatch⟩ := matchAt_one_isSome.mp hmatch
  obtain ⟨w, t, rfl, -, hmatch⟩ := matchAt_many_isSome.mp hmatch
  obtain ⟨d, t, rfl, hd, -⟩ := matchAt_one_isSome.mp hmatch
  obtain rfl := of_decide_eq_true hc
  obtain rfl := of_decide_eq_true hd
  refine List.Sublist.trans ?_ ht.sublist
  refine List.Sublist.trans ?_ (List.sublist_append_right u _)
  refine List.Sublist.cons_cons 91 (List.Sublist.trans ?_ (List.sublist_append_right w _))
  exact List.singleton_sublist.mpr List.mem_cons_self

/-- **A value with brackets** makes its line a section line. -/
theorem search_of_sublist (before : List UInt8) (hvalue : ∀ c ∈ value, ¬ isspace c)
    (h : List.Sublist [91, 93] value) (after : List UInt8) :
    (search patternSection (before ++ value ++ after)).isSome := by
  obtain ⟨u, t, hut, hu, ht⟩ := List.cons_sublist_iff.mp h
  obtain ⟨a, b, rfl⟩ := List.append_of_mem hu
  obtain ⟨w, z, rfl⟩ := List.append_of_mem (List.singleton_sublist.mp ht)
  refine search_isSome.mpr ⟨91 :: (b ++ w) ++ 93 :: (z ++ after), ⟨before ++ a, ?_⟩, ?_⟩
  · rw [hut]
    simp
  refine matchAt_many_isSome.mpr ⟨[], _, rfl, List.forall_mem_nil _, ?_⟩
  refine matchAt_one_isSome.mpr ⟨91, _, rfl, rfl, ?_⟩
  refine matchAt_many_isSome.mpr ⟨b ++ w, _, rfl, ?_, ?_⟩
  · intro c hc
    refine decide_eq_true ?_
    rintro rfl
    refine hvalue 10 ?_ rfl
    rw [hut]
    rcases List.mem_append.mp hc with hc | hc <;> simp [hc]
  refine matchAt_one_isSome.mpr ⟨93, _, rfl, rfl, ?_⟩
  refine matchAt_many_isSome.mpr ⟨[], _, rfl, List.forall_mem_nil _, ?_⟩
  exact matchAt_many_isSome.mpr ⟨[], _, rfl, List.forall_mem_nil _, rfl⟩

/-- An item line without such a value is not taken for a section line. -/
theorem search_item_none (hvalid : (Line.item key value).Valid) (hnl : Newline nl)
    (hclean : ¬ List.Sublist [91, 93] value) :
    search patternSection ((Line.item key value).text ++ nl) = none := by
  rw [← Option.not_isSome_iff_eq_none]
  intro h
  have hline := sublist_of_search h
  have htext : (Line.item key value).text ++ nl = (key ++ [32, 61, 32]) ++ (value ++ nl) := by
    simp [Line.text]
  obtain ⟨-, hkey, -⟩ := hvalid
  have hopen : 91 ∉ key ++ [32, 61, 32] := by
    intro h
    rcases List.mem_append.mp h with h | h
    · exact (hkey 91 h).2.2 rfl
    · exact absurd h (by decide)
  have hclose : 93 ∉ nl := fun h => absurd (hnl.isspace 93 h) (by decide)
  rw [htext] at hline
  obtain ⟨as, bs, habs, has, hbs⟩ := List.sublist_append_iff.mp hline
  -- the "[" is not before the value, and the "]" not behind it
  have hnil : as = [] := by
    rcases as with - | ⟨a, as⟩
    · rfl
    · obtain rfl : a = 91 := (List.cons.inj habs).1.symm
      exact absurd (has.subset List.mem_cons_self) hopen
  rw [hnil, List.nil_append] at habs
  rw [← habs] at hbs
  obtain ⟨as, bs, habs, has, hbs⟩ := List.sublist_append_iff.mp hbs
  rcases List.eq_nil_or_concat' bs with rfl | ⟨bs, b, rfl⟩
  · rw [List.append_nil] at habs
    exact hclean (habs ▸ has)
  · have hlast := congrArg List.getLast? habs
    rw [← List.append_assoc, List.getLast?_concat] at hlast
    obtain rfl : b = 93 := (Option.some.inj hlast).symm
    exact hclose (hbs.subset (List.mem_append_right _ List.mem_cons_self))

theorem keyChar_iff {c : UInt8} : keyChar c ↔ ¬ isspace c ∧ c ≠ 61 := by
  have hcr : c = 13 → isspace c := by rintro rfl; rfl
  simp only [keyChar, Bool.and_eq_true, Bool.not_eq_true', decide_eq_true_eq]
  grind

theorem valueChar_iff {c : UInt8} : valueChar c ↔ ¬ isspace c := by
  have hcr : c = 13 → isspace c := by rintro rfl; rfl
  have hlf : c = 10 → isspace c := by rintro rfl; rfl
  simp only [valueChar, Bool.and_eq_true, Bool.not_eq_true', decide_eq_true_eq]
  grind

/-- **An item line.** -/
theorem search_item (hvalid : (Line.item key value).Valid) (hnl : Newline nl) :
    search patternItem ((Line.item key value).text ++ nl) = some [key, value, nl] := by
  obtain ⟨hne, hkey, -, hvalue, hspace⟩ := hvalid
  have htail : matchAt (patternItem.drop 6) nl = some [nl] := by
    rcases hnl with rfl | rfl <;> rfl
  have hval : matchAt (patternItem.drop 5) (value ++ nl) = some [value, nl] := by
    refine matchAt_reluctant ?_ ?_ htail
    · exact fun c hc => valueChar_iff.mpr (hspace c hc)
    · rintro a b rfl hb
      obtain ⟨c, b, rfl⟩ := List.exists_cons_of_ne_nil hb
      have hc : ¬ isspace c := hspace c (List.mem_append_right a List.mem_cons_self)
      have hclass : ¬ (c = 13 || c = 10 || isspace c) := by
        have hv := valueChar_iff.mpr hc
        simp only [valueChar, Bool.and_eq_true, decide_eq_true_eq] at hv
        simp [hv, hc]
      refine matchAt_many_eq_none hclass ?_
      rw [matchAt, if_neg]
      rintro (h | h)
      · cases h
      · refine hc ?_
        rw [(List.cons.inj h).1]
        rfl
  obtain ⟨v, vs, rfl⟩ := List.exists_cons_of_ne_nil hvalue
  have hequals : matchAt (patternItem.drop 3) (61 :: ([32] ++ (v :: vs ++ nl))) =
      some [v :: vs, nl] := by
    refine (matchAt_one rfl).trans (matchAt_greedy (List.forall_mem_singleton.mpr rfl) ?_ hval)
    intro c hc
    rw [← Option.some.inj hc]
    exact hspace v List.mem_cons_self
  have hblank : matchAt (patternItem.drop 2) ([32] ++ 61 :: ([32] ++ (v :: vs ++ nl))) =
      some [v :: vs, nl] := by
    refine matchAt_greedy (List.forall_mem_singleton.mpr rfl) ?_ hequals
    intro c hc
    rw [← Option.some.inj hc]
    decide
  have hname : matchAt (patternItem.drop 1) (key ++ ([32] ++ 61 :: ([32] ++ (v :: vs ++ nl)))) =
      some [key, v :: vs, nl] := by
    refine matchAt_reluctant ?_ ?_ hblank
    · exact fun c hc => keyChar_iff.mpr ⟨(hkey c hc).1, (hkey c hc).2.1⟩
    · rintro a b rfl hb
      obtain ⟨c, b, rfl⟩ := List.exists_cons_of_ne_nil hb
      have hc := hkey c (List.mem_append_right a List.mem_cons_self)
      exact matchAt_many_eq_none hc.1 (matchAt_one_eq_none fun h => hc.2.1 (of_decide_eq_true h))
  obtain ⟨k, ks, rfl⟩ := List.exists_cons_of_ne_nil hne
  have htext : (Line.item (k :: ks) (v :: vs)).text ++ nl =
      [] ++ (k :: ks ++ ([32] ++ 61 :: ([32] ++ (v :: vs ++ nl)))) := by
    simp [Line.text]
  rw [htext]
  refine search_of_matchAt (matchAt_greedy (List.forall_mem_nil _) ?_ hname)
  intro c hc
  rw [← Option.some.inj hc]
  exact (hkey k List.mem_cons_self).1

/-! ### The lines of a file -/

theorem fileLines_append {line : List UInt8} (hline : 10 ∉ line) (file : List UInt8) :
    fileLines (line ++ 10 :: file) = (line ++ [10]) :: fileLines file := by
  induction line with
  | nil => rw [List.nil_append, fileLines, if_pos rfl, List.nil_append]
  | cons c line ih =>
    rw [List.mem_cons, not_or] at hline
    rw [List.cons_append, fileLines, if_neg (Ne.symm hline.1), ih hline.2]
    rfl

theorem fileLines_last {line : List UInt8} (hline : 10 ∉ line) (hne : line ≠ []) :
    fileLines line = [line] := by
  induction line with
  | nil => exact absurd rfl hne
  | cons c line ih =>
    rw [List.mem_cons, not_or] at hline
    rw [fileLines, if_neg (Ne.symm hline.1)]
    by_cases hnil : line = []
    · rw [hnil, fileLines]
    · rw [ih hline.2 hnil]

theorem Line.Valid.newline {l : Line} (h : l.Valid) : 10 ∉ l.text := by
  cases l with
  | header name =>
    simp only [Line.text, List.cons_append, List.mem_cons, List.mem_append]
    rintro (h10 | h10 | h10)
    · exact absurd h10 (by decide)
    · exact h.2.2 h10
    · exact absurd h10 (by decide)
  | item key value =>
    obtain ⟨-, hkey, -, -, hvalue⟩ := h
    simp only [Line.text, List.mem_cons, List.mem_append]
    rintro (h10 | h10 | h10 | h10 | h10)
    · exact (hkey 10 h10).1 rfl
    · exact absurd h10 (by decide)
    · exact absurd h10 (by decide)
    · exact absurd h10 (by decide)
    · exact hvalue 10 h10 rfl

theorem Line.text_ne_nil (l : Line) : l.text ≠ [] := by
  cases l <;> simp [Line.text]

theorem fileLines_fileText_append {ls : List Line} (hvalid : ∀ l ∈ ls, l.Valid)
    (rest : List UInt8) :
    fileLines (fileText ls ++ rest) = ls.map (fun l => l.text ++ [10]) ++ fileLines rest := by
  induction ls with
  | nil => rfl
  | cons l ls ih =>
    rw [List.forall_mem_cons] at hvalid
    rw [fileText, List.flatMap_cons, List.append_assoc, List.append_assoc, List.singleton_append,
      fileLines_append hvalid.1.newline, List.map_cons, List.cons_append]
    exact congrArg _ (ih hvalid.2)

theorem fileText_concat_dropLast (ls : List Line) (l : Line) :
    (fileText (ls ++ [l])).dropLast = fileText ls ++ l.text := by
  rw [fileText, List.flatMap_append, List.flatMap_singleton, ← List.append_assoc,
    List.dropLast_concat]
  rfl

namespace Reading

/-- What a line is meant to do. -/
def apply (r : Reading) : Line → Option Reading
  | .header name => some (r.enter name)
  | .item key value => r.item key value

theorem readLine_eq {line : List UInt8} {c : UInt8} (hnul : 0 ∉ line) (hhead : line.head? = some c)
    (hc : ¬ isspace c) (hcomment : c ≠ 35) (r : Reading) : r.readLine line = r.parse line := by
  obtain ⟨rest, rfl⟩ : ∃ rest, line = c :: rest := List.head?_eq_some_iff.mp hhead
  have hskip : ¬ skipped c := by
    intro h
    refine hc ?_
    simp only [skipped, Bool.or_eq_true, decide_eq_true_eq] at h
    rcases h with ((rfl | rfl) | rfl) | rfl <;> rfl
  simp only [readLine, cStr_of_not_mem hnul, List.dropWhile_cons_of_neg hskip, if_neg hcomment]

theorem readLine_header (hvalid : (Line.header name).Valid) (hnul : 0 ∉ name) (hnl : Newline nl)
    (r : Reading) : r.readLine ((Line.header name).text ++ nl) = some (r.enter name) := by
  have hfree : 0 ∉ (Line.header name).text ++ nl := by
    simp only [Line.text, List.cons_append, List.mem_cons, List.mem_append]
    rintro (h | (h | h | h) | h)
    · exact absurd h (by decide)
    · exact hnul h
    · exact absurd h (by decide)
    · cases h
    · exact absurd (hnl.isspace 0 h) (by decide)
  rw [readLine_eq hfree rfl (by decide) (by decide), parse, search_header hvalid hnl]
  rfl

/-- An item line without a NUL is looked at by the two patterns. -/
theorem readLine_item_eq (hvalid : (Line.item key value).Valid) (hkey : 0 ∉ key)
    (hvalue : 0 ∉ value) (hnl : Newline nl) (r : Reading) :
    r.readLine ((Line.item key value).text ++ nl) =
      r.parse ((Line.item key value).text ++ nl) := by
  have hfree : 0 ∉ (Line.item key value).text ++ nl := by
    simp only [Line.text, List.mem_cons, List.mem_append]
    rintro ((h | h | h | h | h) | h)
    · exact hkey h
    · exact absurd h (by decide)
    · exact absurd h (by decide)
    · exact absurd h (by decide)
    · exact hvalue h
    · exact absurd (hnl.isspace 0 h) (by decide)
  obtain ⟨hne, hchars, hcomment, -, -⟩ := hvalid
  obtain ⟨k, ks, rfl⟩ := List.exists_cons_of_ne_nil hne
  refine readLine_eq hfree rfl (hchars k List.mem_cons_self).1 ?_ r
  rintro rfl
  exact hcomment rfl

/-- **A clean line** does what it is meant to do. -/
theorem readLine_text {l : Line} (hvalid : l.Valid) (hclean : l.Clean) (hnl : Newline nl)
    (r : Reading) : r.readLine (l.text ++ nl) = r.apply l := by
  cases l with
  | header name => exact readLine_header hvalid hclean.1 hnl r
  | item key value =>
    obtain ⟨hkey, hvalue, -, hbrackets⟩ := hclean
    rw [readLine_item_eq hvalid hkey hvalue hnl, parse, search_item_none hvalid hnl hbrackets,
      search_item hvalid hnl]
    rfl

/-- A line with brackets in its value opens a section. -/
theorem readLine_brackets (hvalid : (Line.item key value).Valid) (hkey : 0 ∉ key)
    (hvalue : 0 ∉ value) (hnl : Newline nl) (hbrackets : List.Sublist [91, 93] value)
    (r : Reading) :
    ∃ name, r.readLine ((Line.item key value).text ++ nl) = some (r.enter name) := by
  have htext : (Line.item key value).text ++ nl = key ++ [32, 61, 32] ++ value ++ nl := by
    simp [Line.text]
  obtain ⟨m, hm⟩ := Option.isSome_iff_exists.mp
    (search_of_sublist (key ++ [32, 61, 32]) hvalid.2.2.2.2 hbrackets nl)
  rw [← htext] at hm
  rw [readLine_item_eq hvalid hkey hvalue hnl, parse, hm]
  exact ⟨_, rfl⟩

theorem foldlM_readLine {ls : List Line} (hvalid : ∀ l ∈ ls, l.Valid) (hclean : ∀ l ∈ ls, l.Clean)
    (r : Reading) : (ls.map fun l => l.text ++ [10]).foldlM readLine r = ls.foldlM apply r := by
  induction ls generalizing r with
  | nil => rfl
  | cons l ls ih =>
    rw [List.forall_mem_cons] at hvalid hclean
    rw [List.map_cons, List.foldlM_cons, List.foldlM_cons,
      readLine_text hvalid.1 hclean.1 (Or.inr rfl)]
    exact congrArg _ (funext (ih hvalid.2 hclean.2))

end Reading

/-- **A file of clean lines**, with or without its last newline. -/
theorem iniFileReader_eq {ls : List Line} (hvalid : ∀ l ∈ ls, l.Valid)
    (hclean : ∀ l ∈ ls, l.Clean) {file : List UInt8}
    (hfile : file = fileText ls ∨ file = (fileText ls).dropLast) :
    iniFileReader file = (ls.foldlM Reading.apply Reading.start).map Reading.iniKvMap := by
  unfold iniFileReader
  refine congrArg _ ?_
  have hclosed : (fileLines (fileText ls)).foldlM Reading.readLine Reading.start =
      ls.foldlM Reading.apply Reading.start := by
    have hlines := fileLines_fileText_append hvalid []
    rw [List.append_nil] at hlines
    rw [hlines, fileLines, List.append_nil, Reading.foldlM_readLine hvalid hclean]
  rcases hfile with rfl | rfl
  · exact hclosed
  · rcases List.eq_nil_or_concat' ls with rfl | ⟨ls, l, rfl⟩
    · exact hclosed
    · rw [List.forall_mem_append] at hvalid hclean
      have hl := hvalid.2 l List.mem_cons_self
      have hlast := Reading.readLine_text hl (hclean.2 l List.mem_cons_self) (Or.inl rfl)
      rw [fileText_concat_dropLast, fileLines_fileText_append hvalid.1,
        fileLines_last hl.newline l.text_ne_nil, List.foldlM_append, List.foldlM_append,
        Reading.foldlM_readLine hvalid.1 hclean.1]
      simp only [List.append_nil] at hlast
      simp only [List.foldlM_cons, List.foldlM_nil, hlast]

end IniFileReader

end Xkim
