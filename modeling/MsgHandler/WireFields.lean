/-
MsgHandler/WireFields.lean

The kinds of fields of a message type.

A field holds at most one scalar (`FieldSpec.optional`), any number of them
(`FieldSpec.repeated`), one of an enumeration (`FieldSpec.enum`) or a message of
another type (`FieldSpec.message`).  Each kind is shown to be lawful once, for
every number and every place in a record, and to keep a message well-formed.
-/
import MsgHandler.WireFormat

namespace Xkim.Wire

variable {U α V E β : Type}

/-! ### Readers -/

namespace Reader

/-- A scalar goes into the message. -/
def scalar (read : List UInt8 → Option (V × List UInt8)) (set : V → α → α) : Reader U α :=
  fun input m => (read input).map fun r => (m.update (set r.1), r.2)

/-- A number goes into the message, or is kept if it is none of the enumeration. -/
def enum (R : Runtime U) (ofNumber : ℤ → Option E) (number : ℕ) (set : E → α → α) :
    Reader U α :=
  fun input m => (R.readEnum input).map fun r =>
    ((ofNumber r.1).elim (m.addUnknown (R.addVarint number r.1)) fun e => m.update (set e), r.2)

/-- `ReadMessageNoVirtual`, where `read` is the parser of the message. -/
def limited (R : Runtime U) (d : ℕ) (read : List UInt8 → Message U α → Option β)
    (set : β → α → α) : Reader U α :=
  fun input m => (R.readLimited d input).bind fun r =>
    (read r.1 m).map fun y => (m.update (set y), r.2)

theorem scalar_consumes {read : List UInt8 → Option (V × List UInt8)} {set : V → α → α}
    (hread : ∀ {input v rest}, read input = some (v, rest) → rest.length ≤ input.length) :
    (scalar (U := U) read set).Consumes := by
  intro input m m' rest h
  obtain ⟨⟨v, rest'⟩, hv, he⟩ := Option.map_eq_some_iff.mp h
  obtain ⟨-, rfl⟩ := Prod.mk.inj he
  exact hread hv

end Reader

/-! ### Fields -/

namespace FieldSpec

/-- A field that holds at most one value. -/
def optional (c : Scalar V) (number : ℕ) (required : Bool) (get : α → Option V)
    (put : Option V → α → α) : FieldSpec U α where
  number := number
  reads w := if w = c.wireType then some (Reader.scalar c.read fun v => put (some v)) else none
  write x := (get x).elim [] fun v => c.write number v
  size x := (get x).elim 0 fun v => 1 + c.size v
  merge m x := (get x).elim m fun v => put (some v) m
  initialized x := !required || (get x).isSome
  Valid x := ∀ v, get x = some v → c.Valid v

/-- A field of an enumeration. -/
def enum (R : Runtime U) (ofNumber : ℤ → Option E) (toNumber : E → ℤ) (number : ℕ)
    (required : Bool) (get : α → Option E) (put : Option E → α → α) : FieldSpec U α where
  number := number
  reads w :=
    if w = .varint then some (Reader.enum R ofNumber number fun e => put (some e)) else none
  write x := (get x).elim [] fun e => R.writeEnum number (toNumber e)
  size x := (get x).elim 0 fun e => 1 + R.enumSize (toNumber e)
  merge m x := (get x).elim m fun e => put (some e) m
  initialized x := !required || (get x).isSome
  Valid _ := True

/-- A field that holds any number of values.  It is written with one tag for
each, and read in the packed form as well. -/
def repeated (c : Scalar V) (packed : List UInt8 → Option (List V × List UInt8)) (number : ℕ)
    (get : α → List V) (add : V → α → α) : FieldSpec U α where
  number := number
  reads w :=
    if w = c.wireType then some (Reader.scalar c.read add)
    else if w = .lengthDelimited then
      some (Reader.scalar packed fun vs x => vs.foldl (fun x v => add v x) x)
    else none
  write x := (get x).flatMap fun v => c.write number v
  size x := 1 * (get x).length + ((get x).map c.size).sum
  merge m x := (get x).foldl (fun m v => add v m) m
  initialized _ := true
  Valid x := ∀ v ∈ get x, c.Valid v

/-- A message of the type `sub` inside a message at the depth `d`.  A second one
is merged into the first. -/
def message [Inhabited β] (R : Runtime U) (sub : List (FieldSpec U β)) (d number : ℕ)
    (required : Bool) (get : α → Option (Message U β)) (put : Option (Message U β) → α → α) :
    FieldSpec U α where
  number := number
  reads w :=
    if w = .lengthDelimited then
      some (Reader.limited R d
        (fun b m => Wire.merge R sub (d + 1) b ((get m.fields).getD default))
        fun y => put (some y))
    else none
  write x := (get x).elim [] fun y => R.writeMessage number (serialize R sub y)
  size x := (get x).elim 0 fun y => 1 + R.messageSize (byteSize R sub y)
  merge m x := (get x).elim m fun y => put (some (mergeFrom sub ((get m).getD default) y)) m
  initialized x := (!required || (get x).isSome) && (get x).elim true (isInitialized sub)
  Valid x := ∀ y, get x = some y → WellFormed R sub (d + 1) y

/-! #### The values of a field -/

section

variable (R : Runtime U) (c : Scalar V) (number : ℕ) (required : Bool) (x : α)

@[simp]
theorem optional_valid (get : α → Option V) (put : Option V → α → α) :
    (optional (U := U) c number required get put).Valid x ↔ ∀ v, get x = some v → c.Valid v :=
  Iff.rfl

@[simp]
theorem enum_valid (ofNumber : ℤ → Option E) (toNumber : E → ℤ) (get : α → Option E)
    (put : Option E → α → α) : (enum R ofNumber toNumber number required get put).Valid x :=
  trivial

@[simp]
theorem repeated_valid (packed : List UInt8 → Option (List V × List UInt8)) (get : α → List V)
    (add : V → α → α) :
    (repeated (U := U) c packed number get add).Valid x ↔ ∀ v ∈ get x, c.Valid v := Iff.rfl

@[simp]
theorem message_valid [Inhabited β] (sub : List (FieldSpec U β)) (d : ℕ)
    (get : α → Option (Message U β)) (put : Option (Message U β) → α → α) :
    (message R sub d number required get put).Valid x ↔
      ∀ y, get x = some y → WellFormed R sub (d + 1) y :=
  Iff.rfl

@[simp]
theorem optional_initialized (get : α → Option V) (put : Option V → α → α) :
    (optional (U := U) c number required get put).initialized x =
      (!required || (get x).isSome) := rfl

@[simp]
theorem enum_initialized (ofNumber : ℤ → Option E) (toNumber : E → ℤ) (get : α → Option E)
    (put : Option E → α → α) :
    (enum R ofNumber toNumber number required get put).initialized x =
      (!required || (get x).isSome) := rfl

@[simp]
theorem repeated_initialized (packed : List UInt8 → Option (List V × List UInt8))
    (get : α → List V) (add : V → α → α) :
    (repeated (U := U) c packed number get add).initialized x = true := rfl

@[simp]
theorem message_initialized [Inhabited β] (sub : List (FieldSpec U β)) (d : ℕ)
    (get : α → Option (Message U β)) (put : Option (Message U β) → α → α) :
    (message R sub d number required get put).initialized x =
      ((!required || (get x).isSome) && (get x).all (isInitialized sub)) := by
  simp only [message]
  cases get x <;> rfl

end

/-! #### Merging into a message that does not have the field -/

theorem optional_merge {c : Scalar V} {number : ℕ} {required : Bool} {get : α → Option V}
    {put : Option V → α → α} {m : α} (h : put none m = m) (x : α) :
    (optional (U := U) c number required get put).merge m x = put (get x) m := by
  simp only [optional]
  cases get x with
  | none => exact h.symm
  | some v => rfl

theorem enum_merge {R : Runtime U} {ofNumber : ℤ → Option E} {toNumber : E → ℤ} {number : ℕ}
    {required : Bool} {get : α → Option E} {put : Option E → α → α} {m : α}
    (h : put none m = m) (x : α) :
    (enum R ofNumber toNumber number required get put).merge m x = put (get x) m := by
  simp only [enum]
  cases get x with
  | none => exact h.symm
  | some e => rfl

theorem repeated_merge {c : Scalar V} {packed : List UInt8 → Option (List V × List UInt8)}
    {number : ℕ} {get : α → List V} {add : V → α → α} (m x : α) :
    (repeated (U := U) c packed number get add).merge m x =
      (get x).foldl (fun m v => add v m) m := rfl

/-! #### Lawfulness -/

variable {R : Runtime U} {c : Scalar V} {packed : List UInt8 → Option (List V × List UInt8)}
  {number : ℕ} {required : Bool}

theorem optional_lawful {get : α → Option V} {put : Option V → α → α} (hc : R.Carries c)
    (hn : IsNumber number) : (optional c number required get put).Lawful R where
  consumes := by
    intro w r hr
    obtain ⟨-, hr⟩ := Option.ite_none_right_eq_some.mp hr
    obtain rfl := Option.some.inj hr
    exact Reader.scalar_consumes fun hv => (hc.read_some hv).2
  reads_write := by
    intro loop hloop x hx hlen rest m
    cases hget : get x with
    | none => simp [optional, hget, Message.update]
    | some v =>
      simp only [optional, hget, Option.elim_some] at hloop hlen ⊢
      obtain ⟨t, ht, hread⟩ := hc.reads hn (hx v hget) hlen rest
      rw [hloop (if_pos rfl) ht, Reader.scalar, hread]
      rfl
  size_eq := by
    intro x hx hlen
    cases hget : get x with
    | none => simp [optional, hget]
    | some v =>
      simp only [optional, hget, Option.elim_some] at hlen ⊢
      exact hc.size_eq hn (hx v hget) hlen

theorem enum_lawful {ofNumber : ℤ → Option E} {toNumber : E → ℤ} {get : α → Option E}
    {put : Option E → α → α} (hR : R.Lawful)
    (hnum : ∀ e, IsInt32 (toNumber e) ∧ ofNumber (toNumber e) = some e)
    (hn : IsNumber number) : (enum R ofNumber toNumber number required get put).Lawful R where
  consumes := by
    intro w r hr input m m' rest h
    obtain ⟨-, hr⟩ := Option.ite_none_right_eq_some.mp hr
    obtain rfl := Option.some.inj hr
    obtain ⟨⟨v, rest'⟩, hv, he⟩ := Option.map_eq_some_iff.mp h
    obtain ⟨-, rfl⟩ := Prod.mk.inj he
    exact (hR.enum.read_some hv).2
  reads_write := by
    intro loop hloop x _ hlen rest m
    cases hget : get x with
    | none => simp [enum, hget, Message.update]
    | some e =>
      simp only [enum, hget, Option.elim_some] at hloop hlen ⊢
      obtain ⟨t, ht, hread⟩ := hR.enum.reads hn (hnum e).1 hlen rest
      have hread : R.readEnum t = some (toNumber e, rest) := hread
      have ht : R.readTag (R.writeEnum number (toNumber e) ++ rest) = some (number, .varint, t) :=
        ht
      rw [hloop (if_pos rfl) ht, Reader.enum, hread, Option.map_some, (hnum e).2]
      rfl
  size_eq := by
    intro x _ hlen
    cases hget : get x with
    | none => simp [enum, hget]
    | some e =>
      simp only [enum, hget, Option.elim_some] at hlen ⊢
      exact hR.enum.size_eq hn (hnum e).1 hlen

theorem repeated_lawful {get : α → List V} {add : V → α → α} (hc : R.Carries c)
    (hpacked : ∀ {input vs rest}, packed input = some (vs, rest) → rest.length ≤ input.length)
    (hn : IsNumber number) : (repeated c packed number get add).Lawful R where
  consumes := by
    intro w r hr
    simp only [repeated] at hr
    split at hr
    · obtain rfl := Option.some.inj hr
      exact Reader.scalar_consumes fun hv => (hc.read_some hv).2
    · obtain ⟨-, hr⟩ := Option.ite_none_right_eq_some.mp hr
      obtain rfl := Option.some.inj hr
      exact Reader.scalar_consumes hpacked
  reads_write := by
    intro loop hloop x hx hlen rest m
    simp only [repeated] at hloop hx hlen ⊢
    generalize get x = vs at hx hlen ⊢
    induction vs generalizing m with
    | nil => rfl
    | cons v vs ih =>
      simp only [List.flatMap_cons, List.length_append] at hlen
      obtain ⟨t, ht, hread⟩ := hc.reads hn (hx v List.mem_cons_self) (by omega)
        (vs.flatMap (fun v => c.write number v) ++ rest)
      rw [List.flatMap_cons, List.append_assoc, hloop (if_pos rfl) ht, Reader.scalar, hread,
        Option.map_some, Option.bind_some,
        ih _ (fun u hu => hx u (List.mem_cons_of_mem v hu)) (by omega)]
      rfl
  size_eq := by
    intro x hx hlen
    simp only [repeated] at hx hlen ⊢
    generalize get x = vs at hx hlen ⊢
    induction vs with
    | nil => rfl
    | cons v vs ih =>
      simp only [List.flatMap_cons, List.length_append] at hlen ⊢
      have htail := ih (fun u hu => hx u (List.mem_cons_of_mem v hu)) (by omega)
      have hhead := hc.size_eq hn (hx v List.mem_cons_self) (by omega)
      rw [List.map_cons, List.sum_cons, List.length_cons]
      omega

/-! #### Well-formedness -/

variable {fs : List (FieldSpec U α)} {d : ℕ}

/-- Setting a field to a value of its type does not disturb the others. -/
def Sets (fs : List (FieldSpec U α)) (P : V → Prop) (set : V → α → α) : Prop :=
  ∀ v x, P v → (∀ f ∈ fs, f.Valid x) → ∀ f ∈ fs, f.Valid (set v x)

theorem Sets.wellFormed {P : V → Prop} {set : V → α → α} (hset : Sets fs P set) {v : V}
    (hv : P v) {m : Message U α} (hm : WellFormed R fs d m) :
    WellFormed R fs d (m.update (set v)) :=
  ⟨hset v m.fields hv hm.valid, hm.foreign⟩

theorem scalar_keeps {P : V → Prop} {read : List UInt8 → Option (V × List UInt8)}
    {set : V → α → α} (hread : ∀ {input v rest}, read input = some (v, rest) → P v)
    (hset : Sets fs P set) {input rest : List UInt8} {m m' : Message U α}
    (h : Reader.scalar read set input m = some (m', rest)) (hm : WellFormed R fs d m) :
    WellFormed R fs d m' := by
  obtain ⟨⟨v, rest'⟩, hv, he⟩ := Option.map_eq_some_iff.mp h
  obtain ⟨rfl, -⟩ := Prod.mk.inj he
  exact hset.wellFormed (hread hv) hm

theorem optional_keeps {get : α → Option V} {put : Option V → α → α} (hc : R.Carries c)
    (hset : Sets fs c.Valid fun v => put (some v)) :
    (optional c number required get put).Keeps R fs d := by
  intro w r hr input m m' rest h hm
  obtain ⟨-, hr⟩ := Option.ite_none_right_eq_some.mp hr
  obtain rfl := Option.some.inj hr
  exact scalar_keeps (fun hv => (hc.read_some hv).1) hset h hm

/-- A number outside the enumeration would be refused again. -/
theorem enum_keeps {ofNumber : ℤ → Option E} {toNumber : E → ℤ} {get : α → Option E}
    {put : Option E → α → α} (hR : R.Lawful) (hfs : Wire.Lawful R fs) (hn : IsNumber number)
    (hmem : enum R ofNumber toNumber number required get put ∈ fs)
    (hset : Sets fs (fun _ => True) fun e => put (some e)) :
    (enum R ofNumber toNumber number required get put).Keeps R fs d := by
  intro w r hr input m m' rest h hm
  obtain ⟨-, hr⟩ := Option.ite_none_right_eq_some.mp hr
  obtain rfl := Option.some.inj hr
  obtain ⟨⟨v, rest'⟩, hv, he⟩ := Option.map_eq_some_iff.mp h
  obtain ⟨rfl, -⟩ := Prod.mk.inj he
  cases hof : ofNumber v with
  | some e => exact hset.wellFormed trivial hm
  | none =>
    refine ⟨hm.valid, fun u hu => ?_⟩
    rcases List.mem_append.mp hu with hu | hu
    · exact hm.foreign u hu
    obtain rfl := List.mem_singleton.mp hu
    refine ⟨number, .varint, fun rest => ?_⟩
    obtain ⟨t, ht, hread⟩ := hR.added hn (hR.enum.read_some hv).1 rest
    refine ⟨t, ht, fun m => ?_⟩
    have hreader : readField R fs d number .varint =
        Reader.enum R ofNumber number fun e => put (some e) :=
      readField_of_mem hfs hmem (if_pos rfl) d
    rw [hreader]
    simp only [Reader.enum, hread, Option.map_some, hof, Option.elim_none]

theorem foldl_sets {P : V → Prop} {add : V → α → α} (hadd : Sets fs P add) :
    Sets fs (fun vs : List V => ∀ v ∈ vs, P v) fun vs x => vs.foldl (fun x v => add v x) x := by
  intro vs x hvs hx
  induction vs generalizing x with
  | nil => exact hx
  | cons v vs ih =>
    exact ih (add v x) (fun u hu => hvs u (List.mem_cons_of_mem v hu))
      (hadd v x (hvs v List.mem_cons_self) hx)

theorem repeated_keeps {get : α → List V} {add : V → α → α} (hc : R.Carries c)
    (hpacked : ∀ {input vs rest}, packed input = some (vs, rest) → ∀ v ∈ vs, c.Valid v)
    (hadd : Sets fs c.Valid add) : (repeated c packed number get add).Keeps R fs d := by
  intro w r hr input m m' rest h hm
  simp only [repeated] at hr
  split at hr
  · obtain rfl := Option.some.inj hr
    exact scalar_keeps (fun hv => (hc.read_some hv).1) hadd h hm
  · obtain ⟨-, hr⟩ := Option.ite_none_right_eq_some.mp hr
    obtain rfl := Option.some.inj hr
    exact scalar_keeps hpacked (foldl_sets hadd) h hm

end FieldSpec

/-! ### Message types -/

/-- A list of fields that makes a message type. -/
structure MessageType [Inhabited α] (R : Runtime U) (fs : List (FieldSpec U α)) : Prop where
  runtime : R.Lawful
  lawful : Lawful R fs
  keeps : ∀ d, ∀ f ∈ fs, f.Keeps R fs d
  /-- No field has a value that is not one of its type when nothing is set. -/
  empty : ∀ f ∈ fs, f.Valid default
  /-- There is nothing in a message but its fields. -/
  merges : ∀ x, fs.foldl (fun m f => f.merge m x) default = x

namespace MessageType

variable [Inhabited α] {R : Runtime U} {fs : List (FieldSpec U α)} {d : ℕ}

theorem mergeFrom_default (h : MessageType R fs) (x : Message U α) :
    mergeFrom fs default x = x := by
  show (⟨_, [] ++ x.unknown⟩ : Message U α) = x
  rw [List.nil_append]
  exact congrArg (Message.mk · x.unknown) (h.merges x.fields)

theorem wellFormed_default (h : MessageType R fs) (d : ℕ) : WellFormed R fs d default :=
  ⟨h.empty, fun _ hu => (List.not_mem_nil hu).elim⟩

/-- **A message is read back.** -/
theorem merge_serialize (h : MessageType R fs) {x : Message U α} (hx : WellFormed R fs d x)
    (hlen : (serialize R fs x).length < 2 ^ 31) :
    merge R fs d (serialize R fs x) default = some x := by
  have hmerge := Wire.merge_serialize h.runtime h.lawful hx hlen [] default
  rwa [List.append_nil, h.mergeFrom_default, merge_nil] at hmerge

/-- **What is accepted can be written.** -/
theorem wellFormed (h : MessageType R fs) {input : List UInt8} {x : Message U α}
    (hx : merge R fs d input default = some x) : WellFormed R fs d x :=
  merge_wellFormed h.runtime h.lawful.field (h.keeps d) hx (h.wellFormed_default d)

end MessageType

namespace FieldSpec

variable [Inhabited β] {R : Runtime U} {sub : List (FieldSpec U β)} {d d' number : ℕ}
  {required : Bool} {get : α → Option (Message U β)} {put : Option (Message U β) → α → α}

theorem message_merge (hsub : MessageType R sub) {m : α} (hget : get m = none)
    (h : put none m = m) (x : α) :
    (message R sub d number required get put).merge m x = put (get x) m := by
  simp only [message, hget, Option.getD_none]
  cases get x with
  | none => exact h.symm
  | some y => rw [Option.elim_some, hsub.mergeFrom_default]

theorem message_lawful (hsub : MessageType R sub) (hd : d < 2) (hn : IsNumber number) :
    (message R sub d number required get put).Lawful R where
  consumes := by
    intro w r hr input m m' rest h
    obtain ⟨-, hr⟩ := Option.ite_none_right_eq_some.mp hr
    obtain rfl := Option.some.inj hr
    obtain ⟨⟨b, rest'⟩, hb, h⟩ := Option.bind_eq_some_iff.mp h
    obtain ⟨y, -, he⟩ := Option.map_eq_some_iff.mp h
    obtain ⟨-, rfl⟩ := Prod.mk.inj he
    exact ((hsub.runtime.message hd).read_some hb).2
  reads_write := by
    intro loop hloop x hx hlen rest m
    cases hget : get x with
    | none => simp [message, hget, Message.update]
    | some y =>
      simp only [message, hget, Option.elim_some] at hloop hlen ⊢
      obtain ⟨t, ht, hread⟩ := (hsub.runtime.message hd).reads hn trivial hlen rest
      have ht : R.readTag (R.writeMessage number (serialize R sub y) ++ rest) =
          some (number, .lengthDelimited, t) := ht
      have hread : R.readLimited d t = some (serialize R sub y, rest) := hread
      have hy := merge_serialize hsub.runtime hsub.lawful (hx y hget)
        ((hsub.runtime.message_long number _).trans_lt hlen) [] ((get m.fields).getD default)
      rw [List.append_nil, merge_nil] at hy
      rw [hloop (if_pos rfl) ht, Reader.limited, hread, Option.bind_some, hy]
      rfl
  size_eq := by
    intro x hx hlen
    cases hget : get x with
    | none => simp [message, hget]
    | some y =>
      simp only [message, hget, Option.elim_some] at hlen ⊢
      rw [byteSize_eq hsub.runtime hsub.lawful (hx y hget).valid
        ((hsub.runtime.message_long number _).trans_lt hlen)]
      exact (hsub.runtime.message hd).size_eq hn trivial hlen

theorem message_keeps {fs : List (FieldSpec U α)} (hsub : MessageType R sub)
    (hmem : message R sub d' number required get put ∈ fs)
    (hset : Sets fs (WellFormed R sub (d' + 1)) fun y => put (some y)) :
    (message R sub d' number required get put).Keeps R fs d := by
  intro w r hr input m m' rest h hm
  obtain ⟨-, hr⟩ := Option.ite_none_right_eq_some.mp hr
  obtain rfl := Option.some.inj hr
  obtain ⟨⟨b, rest'⟩, -, h⟩ := Option.bind_eq_some_iff.mp h
  obtain ⟨y, hy, he⟩ := Option.map_eq_some_iff.mp h
  obtain ⟨rfl, -⟩ := Prod.mk.inj he
  refine hset.wellFormed (merge_wellFormed hsub.runtime hsub.lawful.field (hsub.keeps _) hy ?_) hm
  cases hget : get m.fields with
  | none => exact hsub.wellFormed_default _
  | some y₀ => exact hm.valid _ hmem y₀ hget

end FieldSpec

end Xkim.Wire
