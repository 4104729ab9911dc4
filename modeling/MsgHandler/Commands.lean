/-
MsgHandler/Commands.lean

The commands that reach redis (`framework/lib/redis_operator.cpp`).

An operation passes its one command to hiredis, once or twice, and between the
two attempts there are only calls for the connection (`request_passes`).

`MSet` joins the keys and values by blanks and passes the result as a format
string.  hiredis cuts it at the blanks again, and looks at every "%":

    '%' with another '%'    is a "%" of the argument,
    '%' at the end          is a "%" as well,
    '%' with anything else  is a conversion, for which `MSet` passes nothing.

This is what is assumed of hiredis (`FormatArgs`), as far as it is needed: a text
without such a "%" is cut at its blanks, and otherwise the arguments have fewer
characters than the text has, blanks aside.  So they can only be the right ones if
there is no "%", and no blank in a word.
-/
import MsgHandler.EditDistance
import MsgHandler.Redis
import MsgHandler.Tokens

namespace Xkim

open StringAlgorithms

/-! ### What is passed to hiredis -/

/-- From `s` to `s'` only commands `C` are passed. -/
def PassesOnly (C : RedisCommand → Prop) (s s' : RedisState) : Prop :=
  ∃ calls, s'.trace = s.trace ++ calls ∧ ∀ conn cmd, .command conn cmd ∈ calls → C cmd

namespace PassesOnly

variable {C D : RedisCommand → Prop} {s t u : RedisState}

theorem of_trace (h : t.trace = s.trace) : PassesOnly C s t :=
  ⟨[], by rw [h, List.append_nil], fun _ _ hmem => nomatch hmem⟩

theorem refl (s : RedisState) : PassesOnly C s s := of_trace rfl

theorem trans (h : PassesOnly C s t) (h' : PassesOnly C t u) : PassesOnly C s u := by
  obtain ⟨calls, ht, hcalls⟩ := h
  obtain ⟨calls', hu, hcalls'⟩ := h'
  refine ⟨calls ++ calls', by rw [hu, ht, List.append_assoc], fun conn cmd hmem => ?_⟩
  rcases List.mem_append.mp hmem with hmem | hmem
  · exact hcalls conn cmd hmem
  · exact hcalls' conn cmd hmem

theorem imp (h : PassesOnly C s t) (hCD : ∀ cmd, C cmd → D cmd) : PassesOnly D s t := by
  obtain ⟨calls, ht, hcalls⟩ := h
  exact ⟨calls, ht, fun conn cmd hmem => hCD cmd (hcalls conn cmd hmem)⟩

theorem of_call {c : HiredisCall} (hc : ∀ conn cmd, c = .command conn cmd → C cmd)
    (h : t.trace = s.trace ++ [c]) : PassesOnly C s t :=
  ⟨[c], h, fun conn cmd hmem => hc conn cmd (List.mem_singleton.mp hmem).symm⟩

end PassesOnly

variable {C : RedisCommand → Prop} {s : RedisState}

theorem freeRedisConnection_passes (s : RedisState) : PassesOnly C s s.freeRedisConnection := by
  unfold RedisState.freeRedisConnection
  split
  · exact .refl s
  · exact .of_call (by rintro _ _ ⟨⟩) rfl

namespace RedisOperator

variable (op : RedisOperator) (net : Hiredis)

theorem getRedisConnection_passes (s : RedisState) :
    PassesOnly C s (op.getRedisConnection net s).2 := by
  unfold getRedisConnection
  split_ifs
  · exact .refl s
  · exact .of_call (by rintro _ _ ⟨⟩) rfl

theorem setRedisDB_passes (s : RedisState) : PassesOnly C s (op.setRedisDB net s).2 := by
  unfold setRedisDB
  split_ifs
  · exact .refl s
  · split
    · exact .refl s
    · exact .of_call (by rintro _ _ ⟨⟩) rfl

/-- **Connecting** passes no command. -/
theorem connect_passes (s : RedisState) : PassesOnly C s (op.connect net s).2 := by
  have hget := op.getRedisConnection_passes net (C := C) s
  have htimeout : ∀ t : RedisState, ∀ ok, PassesOnly C t (t.call (.setTimeout t.redis ok)) :=
    fun t ok => .of_call (by rintro _ _ ⟨⟩) rfl
  unfold connect
  dsimp only
  split_ifs
  · exact (hget.trans (htimeout _ _)).trans (op.setRedisDB_passes net _)
  · exact ((hget.trans (htimeout _ _)).trans (op.setRedisDB_passes net _)).trans
      (freeRedisConnection_passes _)
  · exact (hget.trans (htimeout _ _)).trans (freeRedisConnection_passes _)
  · exact hget.trans (freeRedisConnection_passes _)

theorem ensure_passes (s : RedisState) : PassesOnly C s (op.ensure net s).2 := by
  unfold ensure
  split
  · exact .refl s
  · exact op.connect_passes net s

theorem redisCommand_passes (cmd : RedisCommand) (s : RedisState) :
    PassesOnly (· = cmd) s (s.redisCommand net cmd).2 :=
  .of_call (fun _ _ h => (HiredisCall.command.inj h).2.symm) rfl

theorem issue_passes (cmd : RedisCommand) (s : RedisState) :
    PassesOnly (· = cmd) s (op.issue net cmd s).2 := by
  have hfirst := redisCommand_passes net cmd s
  unfold issue
  dsimp only
  split_ifs
  · exact ((hfirst.trans (freeRedisConnection_passes _)).trans (op.connect_passes net _)).trans
      (redisCommand_passes net cmd _)
  · exact (hfirst.trans (freeRedisConnection_passes _)).trans (op.connect_passes net _)
  · exact hfirst

/-- **An operation passes its command** and no other. -/
theorem request_passes (cmd : RedisCommand) (s : RedisState) :
    PassesOnly (· = cmd) s (op.request net cmd s).2 := by
  unfold request
  dsimp only
  split_ifs
  · exact (op.ensure_passes net s).trans (op.issue_passes net cmd _)
  · exact op.ensure_passes net s

theorem pub_passes (msg : List UInt8) (s : RedisState) :
    PassesOnly (· = .publish op.channel msg) s (op.pub net msg s).2 := by
  have hens := op.ensure_passes net (C := (· = .publish op.channel msg)) s
  unfold pub
  dsimp only
  split_ifs
  · exact hens
  · split
    · exact hens.trans (op.issue_passes net _ _)
    · exact hens.trans (op.issue_passes net _ _)
  · exact hens

end RedisOperator

/-! ### Format strings -/

/-- The characters other than blanks. -/
def inked (s : List UInt8) : ℕ := (s.filter (· ≠ 32)).length

theorem inked_cons (c : UInt8) (s : List UInt8) :
    inked (c :: s) = (if c = 32 then 0 else 1) + inked s := by
  unfold inked
  by_cases hc : c = 32
  · simp [hc]
  · simp [hc, Nat.add_comm]

theorem inked_append (s t : List UInt8) : inked (s ++ t) = inked s + inked t := by
  unfold inked
  rw [List.filter_append, List.length_append]

/-- The blanks between the words do not count. -/
theorem inked_joined (ws : List (List UInt8)) : inked (joined 32 ws) = inked ws.flatten := by
  induction ws with
  | nil => rfl
  | cons w ws ih =>
    rw [joined_cons, List.cons_append, inked_cons, if_pos rfl, List.flatten_cons, inked_append,
      inked_append, ih, Nat.zero_add]

/-- What is assumed of the argument vector that hiredis makes of a format string
without values; there is none for a conversion that has no value.  A "%" at the very
end is a character like others, and any other one is read with what follows it, of
which at most one character is left. -/
structure FormatArgs (F : List UInt8 → Option (List (List UInt8))) : Prop where
  cut : ∀ format, 0 ∉ format → 37 ∉ format.dropLast → F format = some (tokens 32 format)
  interpreted : ∀ format args, 0 ∉ format → 37 ∈ format.dropLast → F format = some args →
    args.flatten.length < inked format

/-- **The words come back** iff none has a blank and there is no "%" before the
end. -/
theorem FormatArgs.joined_iff {F : List UInt8 → Option (List (List UInt8))} (hF : FormatArgs F)
    {u : List UInt8} {ws : List (List UInt8)} (hu : 32 ∉ u) (hne : u ≠ [])
    (hws : ∀ w ∈ ws, w ≠ []) (hnul : 0 ∉ u ++ joined 32 ws) :
    F (u ++ joined 32 ws) = some (u :: ws) ↔
      (∀ w ∈ ws, 32 ∉ w) ∧ 37 ∉ (u ++ joined 32 ws).dropLast := by
  constructor
  · intro h
    have hpercent : 37 ∉ (u ++ joined 32 ws).dropLast := by
      intro h37
      have hlt := hF.interpreted _ _ hnul h37 h
      rw [inked_append, inked_joined, ← inked_append] at hlt
      exact absurd hlt (Nat.not_lt.mpr (List.length_filter_le _ _))
    refine ⟨fun w hw => ?_, hpercent⟩
    have hcut := Option.some.inj ((hF.cut _ hnul hpercent).symm.trans h)
    exact not_mem_of_mem_tokensFrom List.not_mem_nil (hcut ▸ List.mem_cons_of_mem u hw)
  · rintro ⟨hblank, hpercent⟩
    rw [hF.cut _ hnul hpercent]
    exact congrArg some (tokens_append_joined hu hne fun w hw => ⟨hblank w hw, hws w hw⟩)

/-! #### The format of hiredis -/

/-- The piece that has been read, if there is one. -/
def pushed (t : List UInt8) : List (List UInt8) := if t = [] then [] else [t]

/-- The arguments of a format string without values for conversions, where `t`
has been read of the current one. -/
def formatArgsFrom : List UInt8 → List UInt8 → Option (List (List UInt8))
  | t, [] => some (pushed t)
  | t, [c] => some (if c = 32 then pushed t else [t ++ [c]])
  | t, c :: d :: format =>
    if c = 37 then (if d = 37 then formatArgsFrom (t ++ [37]) format else none)
    else if c = 32 then (formatArgsFrom [] (d :: format)).map (pushed t ++ ·)
    else formatArgsFrom (t ++ [c]) (d :: format)

/-- The argument vector that hiredis makes of a format string. -/
def formatArgs (format : List UInt8) : Option (List (List UInt8)) :=
  formatArgsFrom [] (cStr 0 format)

variable {t format : List UInt8} {args : List (List UInt8)}

/-- A character that is not the first one. -/
theorem mem_dropLast_of_ne {a b c : UInt8} {l : List UInt8} (hc : b ≠ a)
    (h : a ∈ (b :: c :: l).dropLast) : a ∈ (c :: l).dropLast := by
  rw [List.dropLast_cons_cons, List.mem_cons] at h
  exact h.resolve_left (Ne.symm hc)

/-- **Without "%"** before its end, a format string is cut at its blanks. -/
theorem formatArgsFrom_eq (h : 37 ∉ format.dropLast) :
    formatArgsFrom t format = some (tokensFrom 32 t format) := by
  induction t, format using formatArgsFrom.induct with
  | case1 t => rfl
  | case2 t c =>
    rw [formatArgsFrom, tokensFrom]
    by_cases hc : c = 32
    · rw [if_pos hc, if_pos hc, tokensFrom, if_pos rfl, List.append_nil, pushed]
    · rw [if_neg hc, if_neg hc, tokensFrom, if_neg (by simp)]
  | case3 t d ih => exact absurd List.mem_cons_self h
  | case4 t c d format => exact absurd List.mem_cons_self h
  | case5 t d format hc ih =>
    rw [formatArgsFrom, if_neg hc, if_pos rfl, ih (List.not_mem_of_not_mem_cons h), tokensFrom,
      if_pos rfl]
    rfl
  | case6 t c d format hc hblank ih =>
    have hnext : tokensFrom 32 t (c :: d :: format) = tokensFrom 32 (t ++ [c]) (d :: format) :=
      if_neg hblank
    rw [formatArgsFrom, if_neg hc, if_neg hblank, ih (List.not_mem_of_not_mem_cons h), hnext]

theorem length_flatten_pushed (t : List UInt8) : (pushed t).flatten.length = t.length := by
  unfold pushed
  split_ifs with ht
  · simp [ht]
  · simp

/-- **Every argument is read from characters** other than blanks, and of a "%%"
only one is left. -/
theorem formatArgsFrom_length (h : formatArgsFrom t format = some args) :
    args.flatten.length ≤ t.length + inked format ∧
      (37 ∈ format.dropLast → args.flatten.length < t.length + inked format) := by
  induction t, format using formatArgsFrom.induct generalizing args with
  | case1 t =>
    obtain rfl := Option.some.inj h
    rw [length_flatten_pushed]
    exact ⟨Nat.le_add_right _ _, fun h37 => nomatch h37⟩
  | case2 t c =>
    obtain rfl := Option.some.inj h
    refine ⟨?_, fun h37 => nomatch h37⟩
    rw [inked_cons]
    by_cases hc : c = 32
    · rw [if_pos hc, length_flatten_pushed]
      exact Nat.le_add_right _ _
    · simp [hc]
  | case3 t format ih =>
    rw [formatArgsFrom, if_pos rfl, if_pos rfl] at h
    have hlen := (ih h).1
    rw [List.length_append, List.length_singleton] at hlen
    rw [inked_cons, inked_cons, if_neg (by decide)]
    exact ⟨by omega, fun _ => by omega⟩
  | case4 t d format hd =>
    rw [formatArgsFrom, if_pos rfl, if_neg hd] at h
    cases h
  | case5 t d format hc ih =>
    rw [formatArgsFrom, if_neg hc, if_pos rfl] at h
    obtain ⟨rest, hrest, rfl⟩ := Option.map_eq_some_iff.mp h
    obtain ⟨hle, hlt⟩ := ih hrest
    rw [List.flatten_append, List.length_append, length_flatten_pushed, inked_cons, if_pos rfl]
    rw [List.length_nil] at hle hlt
    refine ⟨by omega, fun h37 => ?_⟩
    have := hlt (mem_dropLast_of_ne hc h37)
    omega
  | case6 t c d format hc hblank ih =>
    rw [formatArgsFrom, if_neg hc, if_neg hblank] at h
    obtain ⟨hle, hlt⟩ := ih h
    rw [List.length_append, List.length_singleton] at hle hlt
    rw [inked_cons, if_neg hblank]
    refine ⟨by omega, fun h37 => ?_⟩
    have := hlt (mem_dropLast_of_ne hc h37)
    omega

/-- Such a function exists, and it does with "%%" what hiredis does. -/
theorem formatArgs_assumed : FormatArgs formatArgs where
  cut format hnul hpercent := by
    rw [formatArgs, cStr_of_not_mem hnul]
    exact formatArgsFrom_eq hpercent
  interpreted format args hnul hpercent h := by
    rw [formatArgs, cStr_of_not_mem hnul] at h
    have hlt := (formatArgsFrom_length h).2 hpercent
    rwa [List.length_nil, Nat.zero_add] at hlt

/-! ### `MSet` -/

/-- The keys and values one after the other. -/
def wordsOf (pairs : List (List UInt8 × List UInt8)) : List (List UInt8) :=
  pairs.flatMap fun p => [p.1, p.2]

theorem msetCommand_eq (pairs : List (List UInt8 × List UInt8)) :
    RedisOperator.msetCommand pairs = [77, 83, 69, 84] ++ joined 32 (wordsOf pairs) := by
  have hfold : ∀ command : List UInt8,
      pairs.foldl (fun command p => command ++ [32] ++ p.1 ++ [32] ++ p.2) command =
        command ++ joined 32 (wordsOf pairs) := by
    induction pairs with
    | nil => simp [wordsOf]
    | cons p pairs ih =>
      intro command
      rw [List.foldl_cons, ih]
      simp [wordsOf, joined]
  exact hfold _

namespace RedisOperator

/-- **What `MSet` writes.**  It passes one text to redis, and the arguments made
of it are the pairs iff no key or value has a blank, and there is no "%" before
the end of the text. -/
theorem mset_writes_iff (op : RedisOperator) (net : Hiredis)
    {F : List UInt8 → Option (List (List UInt8))} (hF : FormatArgs F)
    (pairs : List (List UInt8 × List UInt8)) (hwords : ∀ w ∈ wordsOf pairs, w ≠ [] ∧ 0 ∉ w)
    (s : RedisState) :
    PassesOnly (· = .text (msetCommand pairs)) s (op.mset net pairs s).2 ∧
      (F (msetCommand pairs) = some ([77, 83, 69, 84] :: wordsOf pairs) ↔
        (∀ w ∈ wordsOf pairs, 32 ∉ w) ∧ 37 ∉ (msetCommand pairs).dropLast) := by
  refine ⟨op.request_passes net _ s, ?_⟩
  have hnul : 0 ∉ msetCommand pairs := by
    rw [msetCommand_eq, List.mem_append]
    rintro (h0 | h0)
    · exact absurd h0 (by decide)
    · obtain ⟨w, hw, h0⟩ := List.mem_flatMap.mp h0
      rcases List.mem_cons.mp h0 with h0 | h0
      · exact absurd h0 (by decide)
      · exact (hwords w hw).2 h0
  rw [msetCommand_eq] at hnul ⊢
  exact hF.joined_iff (by decide) (by decide) (fun w hw => (hwords w hw).1) hnul

/-- The pairs of "k" and "v", and of "a" and "50%". -/
theorem mset_writes_iff_plain :
    formatArgs (msetCommand [([107], [118]), ([97], [53, 48, 37])]) =
      some [[77, 83, 69, 84], [107], [118], [97], [53, 48, 37]] :=
  (mset_writes_iff ⟨[], 0, 0, 0, []⟩ ⟨fun _ => true, fun _ => true, fun _ => (none, false),
    fun _ => true⟩ formatArgs_assumed [([107], [118]), ([97], [53, 48, 37])] (by decide)
    .new).2.mpr (by decide)

/-- The value "a b" becomes two arguments, and "%s" is not passed as it is. -/
theorem mset_writes_blank :
    formatArgs (msetCommand [([107], [97, 32, 98])]) = some [[77, 83, 69, 84], [107], [97], [98]] ∧
    ∀ F, FormatArgs F →
      F (msetCommand [([107], [97, 32, 98])]) = some [[77, 83, 69, 84], [107], [97], [98]] ∧
      F (msetCommand [([107], [37, 115])]) ≠ some [[77, 83, 69, 84], [107], [37, 115]] := by
  have hblank {F} (hF : FormatArgs F) :
      F (msetCommand [([107], [97, 32, 98])]) = some [[77, 83, 69, 84], [107], [97], [98]] :=
    hF.cut _ (by decide) (by decide)
  refine ⟨hblank formatArgs_assumed, fun F hF => ⟨hblank hF, fun h => ?_⟩⟩
  exact absurd (hF.interpreted _ _ (by decide) (by decide) h) (by decide)

end RedisOperator

end Xkim
