/-
MsgHandler/WireFormat.lean

Messages as sequences of tagged fields.

The classes that protobuf generates call the functions of its runtime for every
byte that they read or write.  The runtime is a parameter here (`Runtime`), and
what is assumed of it is the structure `Runtime.Lawful`: a value that was written
is read behind its tag, and an unknown field that was skipped is skipped again
where it was written.

A message type is a list of `FieldSpec`s: for every field the number, what the
generated parser does with a payload, what the writer writes, the size of that,
and what becomes of the field when one message is merged into another.  A field
that the type does not know, or whose payload it refuses, is kept as it came
(`Message.unknown`).

Everything rests on one equation: the parser, started in the middle of its
work, on what the writer wrote,

    merge fs d (serialize fs x ++ rest) m = merge fs d rest (mergeFrom fs m x).

Parsing what was written is the case of an empty `m` and `rest`, and parsing
two messages one after the other is the case of two such `x`.  The way back is
`merge_wellFormed`: what the parser accepts is again something the equation
applies to.
-/
import Mathlib

namespace Xkim.Wire

/-! ### The runtime -/

/-- How the extent of a payload is found. -/
inductive WireType
  | varint
  | fixed64
  | lengthDelimited
  | startGroup
  | endGroup
  | fixed32
  deriving DecidableEq, Repr

/-- The values of a 32-bit signed word. -/
def IsInt32 (v : ℤ) : Prop := -2 ^ 31 ≤ v ∧ v < 2 ^ 31

instance (v : ℤ) : Decidable (IsInt32 v) := inferInstanceAs (Decidable (_ ∧ _))

/-- The numbers that fields have.  The generated code counts one byte for a tag. -/
def IsNumber (n : ℕ) : Prop := 0 < n ∧ n < 16

instance (n : ℕ) : Decidable (IsNumber n) := inferInstanceAs (Decidable (_ ∧ _))

/-- The functions of the runtime that generated code calls; `U` are the unknown
fields.  What reads begins behind the tag and returns the rest of the input, what
writes begins with the tag of the given number, and a size is without the tag. -/
structure Runtime (U : Type) where
  /-- `ReadTag`: the number and wire type of the next field.  At the end of the
  input it returns 0, and is not asked here. -/
  readTag : List UInt8 → Option (ℕ × WireType × List UInt8)
  readInt32 : List UInt8 → Option (ℤ × List UInt8)
  writeInt32 : ℕ → ℤ → List UInt8
  int32Size : ℤ → ℕ
  readEnum : List UInt8 → Option (ℤ × List UInt8)
  writeEnum : ℕ → ℤ → List UInt8
  enumSize : ℤ → ℕ
  readBool : List UInt8 → Option (Bool × List UInt8)
  writeBool : ℕ → Bool → List UInt8
  /-- A float is its four bytes. -/
  readFloat : List UInt8 → Option (List UInt8 × List UInt8)
  writeFloat : ℕ → List UInt8 → List UInt8
  readBytes : List UInt8 → Option (List UInt8 × List UInt8)
  writeBytes : ℕ → List UInt8 → List UInt8
  bytesSize : List UInt8 → ℕ
  /-- `ReadPackedPrimitiveNoInline`. -/
  readPackedInt32 : List UInt8 → Option (List ℤ × List UInt8)
  /-- What `ReadMessageNoVirtual` does around the parser of a message: the input up
  to the limit, and the input behind it.  There is a bound on the depth. -/
  readLimited : ℕ → List UInt8 → Option (List UInt8 × List UInt8)
  /-- `WriteMessageNoVirtualToArray`, for a message that is written as these bytes. -/
  writeMessage : ℕ → List UInt8 → List UInt8
  /-- `MessageSizeNoVirtual`, for a message of this size. -/
  messageSize : ℕ → ℕ
  /-- `SkipField` at a depth: the payload of an unknown field. -/
  skipField : ℕ → ℕ → WireType → List UInt8 → Option (U × List UInt8)
  /-- What `AddVarint` adds. -/
  addVarint : ℕ → ℤ → U
  /-- `SerializeUnknownFields`. -/
  writeUnknown : List U → List UInt8
  /-- `ComputeUnknownFieldsSize`. -/
  unknownSize : List U → ℕ

/-- The functions for the values of one type. -/
structure Scalar (V : Type) where
  wireType : WireType
  read : List UInt8 → Option (V × List UInt8)
  write : ℕ → V → List UInt8
  size : V → ℕ
  Valid : V → Prop

variable {U α V : Type}

namespace Runtime

variable (R : Runtime U)

/-- `TYPE_INT32`. -/
def int32 : Scalar ℤ := ⟨.varint, R.readInt32, R.writeInt32, R.int32Size, IsInt32⟩

/-- `TYPE_ENUM`. -/
def enum : Scalar ℤ := ⟨.varint, R.readEnum, R.writeEnum, R.enumSize, IsInt32⟩

/-- `TYPE_BOOL`. -/
def bool : Scalar Bool := ⟨.varint, R.readBool, R.writeBool, fun _ => 1, fun _ => True⟩

/-- `TYPE_FLOAT`. -/
def float : Scalar (List UInt8) :=
  ⟨.fixed32, R.readFloat, R.writeFloat, fun _ => 4, fun v => v.length = 4⟩

/-- `TYPE_BYTES` and `TYPE_STRING`. -/
def bytes : Scalar (List UInt8) :=
  ⟨.lengthDelimited, R.readBytes, R.writeBytes, R.bytesSize, fun _ => True⟩

/-- `TYPE_MESSAGE`, for the bytes of a message inside one at the given depth. -/
def message (depth : ℕ) : Scalar (List UInt8) :=
  ⟨.lengthDelimited, R.readLimited depth, R.writeMessage, fun b => R.messageSize b.length,
    fun _ => True⟩

section

variable (v : ℤ) (b : Bool) (bs : List UInt8)

@[simp]
theorem int32_valid : R.int32.Valid v ↔ IsInt32 v := Iff.rfl

@[simp]
theorem bool_valid : R.bool.Valid b := trivial

@[simp]
theorem float_valid : R.float.Valid bs ↔ bs.length = 4 := Iff.rfl

@[simp]
theorem bytes_valid : R.bytes.Valid bs := trivial

end

/-- Behind the tag that `b` begins with, `read` finds `v`. -/
def ReadsAs (b : List UInt8) (n : ℕ) (w : WireType) (read : List UInt8 → Option (V × List UInt8))
    (v : V) : Prop :=
  ∀ rest, ∃ t, R.readTag (b ++ rest) = some (n, w, t) ∧ read t = some (v, rest)

/-- The values of a type are read as they were written, and whatever is read is a
value of the type. -/
structure Carries (c : Scalar V) : Prop where
  reads : ∀ {n v}, IsNumber n → c.Valid v → (c.write n v).length < 2 ^ 31 →
    R.ReadsAs (c.write n v) n c.wireType c.read v
  read_some : ∀ {input v rest}, c.read input = some (v, rest) →
    c.Valid v ∧ rest.length ≤ input.length
  size_eq : ∀ {n v}, IsNumber n → c.Valid v → (c.write n v).length < 2 ^ 31 →
    1 + c.size v = (c.write n v).length

/-- What is assumed of the runtime.  Two levels of messages inside the outermost
one are within the bound on the depth. -/
structure Lawful : Prop where
  readTag_some : ∀ {input n w t}, R.readTag input = some (n, w, t) → t.length < input.length
  int32 : R.Carries R.int32
  enum : R.Carries R.enum
  bool : R.Carries R.bool
  float : R.Carries R.float
  bytes : R.Carries R.bytes
  message : ∀ {depth}, depth < 2 → R.Carries (R.message depth)
  packed : ∀ {input vs rest}, R.readPackedInt32 input = some (vs, rest) →
    (∀ v ∈ vs, IsInt32 v) ∧ rest.length ≤ input.length
  /-- A field that was skipped is read again as the same one. -/
  skipped : ∀ {depth input n w t u rest}, R.readTag input = some (n, w, t) → w ≠ .endGroup →
    R.skipField depth n w t = some (u, rest) → rest.length ≤ t.length ∧
      R.ReadsAs (R.writeUnknown [u]) n w (R.skipField depth n w) u
  /-- A number that is none of an enumeration is read as the same number. -/
  added : ∀ {n v}, IsNumber n → IsInt32 v →
    R.ReadsAs (R.writeUnknown [R.addVarint n v]) n .varint R.readEnum v
  unknown_nil : R.writeUnknown [] = []
  unknown_cons : ∀ u us, R.writeUnknown (u :: us) = R.writeUnknown [u] ++ R.writeUnknown us
  unknownSize : ∀ {us}, (R.writeUnknown us).length < 2 ^ 31 →
    R.unknownSize us = (R.writeUnknown us).length
  /-- A tag and a number, or a tag and a length, are a few bytes. -/
  int32_short : ∀ n v, (R.writeInt32 n v).length ≤ 20
  enum_short : ∀ n v, (R.writeEnum n v).length ≤ 20
  bool_short : ∀ n v, (R.writeBool n v).length ≤ 20
  bytes_short : ∀ n b, (R.writeBytes n b).length ≤ b.length + 20
  message_short : ∀ n b, (R.writeMessage n b).length ≤ b.length + 20
  message_long : ∀ n b, b.length ≤ (R.writeMessage n b).length

end Runtime

/-! ### Messages -/

/-- A message: the fields of its type, and the others. -/
structure Message (U α : Type) where
  fields : α
  unknown : List U := []
  deriving Repr

/-- A message without any field. -/
instance [Inhabited α] : Inhabited (Message U α) := ⟨⟨default, []⟩⟩

namespace Message

/-- The message with other fields of its type. -/
def update (m : Message U α) (g : α → α) : Message U α := { m with fields := g m.fields }

/-- The message with one more unknown field. -/
def addUnknown (m : Message U α) (f : U) : Message U α := { m with unknown := m.unknown ++ [f] }

end Message

/-- What is done with the payload of a field: the message after it, and the
input after it. -/
abbrev Reader (U α : Type) := List UInt8 → Message U α → Option (Message U α × List UInt8)

/-- A field of a message type. -/
structure FieldSpec (U α : Type) where
  number : ℕ
  /-- The `case` of the field in `MergePartialFromCodedStream`, for the wire
  types it accepts. -/
  reads : WireType → Option (Reader U α)
  /-- Its part of `SerializeWithCachedSizes`. -/
  write : α → List UInt8
  /-- Its part of `ByteSize`. -/
  size : α → ℕ
  /-- Its part of `MergeFrom`: the first message with the field of the second. -/
  merge : α → α → α
  /-- Its part of `IsInitialized`. -/
  initialized : α → Bool
  /-- The values that the type of the field has. -/
  Valid : α → Prop

section

variable (R : Runtime U) (fs : List (FieldSpec U α))

/-- The `switch` of `MergePartialFromCodedStream`.  The end of a group ends the
message before its input is consumed. -/
def readField (d number : ℕ) (w : WireType) : Reader U α := fun input m =>
  match (fs.find? (·.number = number)).bind (·.reads w) with
  | some r => r input m
  | none =>
    if w = .endGroup then none
    else (R.skipField d number w input).map fun f => (m.addUnknown f.1, f.2)

/-- The loop of `MergePartialFromCodedStream`. -/
def mergeLoop (d : ℕ) : ℕ → List UInt8 → Message U α → Option (Message U α)
  | _, [], m => some m
  | 0, _ :: _, _ => none
  | k + 1, b :: bs, m =>
    (R.readTag (b :: bs)).bind fun t =>
      (readField R fs d t.1 t.2.1 t.2.2 m).bind fun r => mergeLoop d k r.2 r.1

/-- `MergePartialFromCodedStream` at the depth `d`, on an input that it has to
consume.

The loop also ends at a tag of zero and at the end of a group.  It has not
consumed its input then, and every caller asks for that. -/
def merge (d : ℕ) (input : List UInt8) (m : Message U α) : Option (Message U α) :=
  mergeLoop R fs d input.length input m

/-- `SerializeWithCachedSizes`. -/
def serialize (x : Message U α) : List UInt8 :=
  fs.flatMap (·.write x.fields) ++ R.writeUnknown x.unknown

/-- `ByteSize`. -/
def byteSize (x : Message U α) : ℕ :=
  (fs.map (·.size x.fields)).sum + R.unknownSize x.unknown

/-- `MergeFrom`. -/
def mergeFrom (m x : Message U α) : Message U α :=
  ⟨fs.foldl (fun m f => f.merge m x.fields) m.fields, m.unknown ++ x.unknown⟩

/-- `IsInitialized`. -/
def isInitialized (x : Message U α) : Bool := fs.all (·.initialized x.fields)

end

/-! #### The loop -/

/-- A reader leaves a shorter input. -/
def Reader.Consumes (r : Reader U α) : Prop :=
  ∀ {input m m' rest}, r input m = some (m', rest) → rest.length ≤ input.length

variable {R : Runtime U}

/-- What the theory asks of a field. -/
structure FieldSpec.Lawful (R : Runtime U) (f : FieldSpec U α) : Prop where
  consumes : ∀ {w r}, f.reads w = some r → r.Consumes
  /-- Any loop that hands the payloads of the field to its readers merges what
  the field has written. -/
  reads_write : ∀ {loop : List UInt8 → Message U α → Option (Message U α)},
    (∀ {w r input t}, f.reads w = some r → R.readTag input = some (f.number, w, t) →
      ∀ m, loop input m = (r t m).bind fun p => loop p.2 p.1) →
    ∀ {x}, f.Valid x → (f.write x).length < 2 ^ 31 → ∀ rest m,
      loop (f.write x ++ rest) m = loop rest (m.update (f.merge · x))
  size_eq : ∀ {x}, f.Valid x → (f.write x).length < 2 ^ 31 → f.size x = (f.write x).length

/-- A message type: its fields have different numbers. -/
structure Lawful (R : Runtime U) (fs : List (FieldSpec U α)) : Prop where
  field : ∀ f ∈ fs, f.Lawful R
  nodup : (fs.map (·.number)).Nodup

variable {fs gs : List (FieldSpec U α)} {d : ℕ}

theorem readField_consumes (hR : R.Lawful) (hfs : ∀ f ∈ fs, f.Lawful R) {input t rest : List UInt8}
    {n : ℕ} {w : WireType} {m m' : Message U α} (ht : R.readTag input = some (n, w, t))
    (h : readField R fs d n w t m = some (m', rest)) : rest.length ≤ t.length := by
  unfold readField at h
  split at h
  · rename_i r hr
    obtain ⟨f, hf, hr⟩ := Option.bind_eq_some_iff.mp hr
    exact (hfs f (List.mem_of_find?_eq_some hf)).consumes hr h
  · obtain ⟨hw, h⟩ := Option.ite_none_left_eq_some.mp h
    obtain ⟨⟨f, rest'⟩, hf, he⟩ := Option.map_eq_some_iff.mp h
    obtain ⟨-, rfl⟩ := Prod.mk.inj he
    exact (hR.skipped ht hw hf).1

/-- Fuel beyond the length of the input is not used. -/
theorem mergeLoop_fuel (hR : R.Lawful) (hfs : ∀ f ∈ fs, f.Lawful R) {k k' : ℕ}
    {input : List UInt8} (hk : input.length ≤ k) (hk' : input.length ≤ k') (m : Message U α) :
    mergeLoop R fs d k input m = mergeLoop R fs d k' input m := by
  induction k generalizing k' input m with
  | zero =>
    obtain rfl : input = [] := List.eq_nil_of_length_eq_zero (by omega)
    cases k' <;> rfl
  | succ k ih =>
    cases input with
    | nil => cases k' <;> rfl
    | cons b bs =>
      obtain ⟨k', rfl⟩ := Nat.exists_eq_succ_of_ne_zero (by
        rw [List.length_cons] at hk'
        omega : k' ≠ 0)
      rw [mergeLoop, mergeLoop]
      refine Option.bind_congr fun ⟨n, w, t⟩ ht => Option.bind_congr fun ⟨m', rest⟩ hr => ?_
      have hlen := hR.readTag_some ht
      have hrest : rest.length ≤ t.length := readField_consumes hR hfs ht hr
      exact ih (show rest.length ≤ k by omega) (show rest.length ≤ k' by omega) m'

@[simp]
theorem merge_nil (R : Runtime U) (fs : List (FieldSpec U α)) (d : ℕ) (m : Message U α) :
    merge R fs d [] m = some m := rfl

/-- One turn of the loop. -/
theorem merge_cons (hR : R.Lawful) (hfs : ∀ f ∈ fs, f.Lawful R) (d : ℕ) (b : UInt8)
    (bs : List UInt8) (m : Message U α) :
    merge R fs d (b :: bs) m = (R.readTag (b :: bs)).bind fun t =>
      (readField R fs d t.1 t.2.1 t.2.2 m).bind fun r => merge R fs d r.2 r.1 := by
  unfold merge
  rw [List.length_cons, mergeLoop]
  refine Option.bind_congr fun ⟨n, w, t⟩ ht => Option.bind_congr fun ⟨m', rest⟩ hr => ?_
  have hlen := hR.readTag_some ht
  have hrest : rest.length ≤ t.length := readField_consumes hR hfs ht hr
  rw [List.length_cons] at hlen
  exact mergeLoop_fuel hR hfs (show rest.length ≤ bs.length by omega) le_rfl m'

/-- The turn that begins with a tag. -/
theorem merge_readTag (hR : R.Lawful) (hfs : ∀ f ∈ fs, f.Lawful R) (d : ℕ) {n : ℕ}
    {w : WireType} {input t : List UInt8} (ht : R.readTag input = some (n, w, t))
    (m : Message U α) :
    merge R fs d input m = (readField R fs d n w t m).bind fun r => merge R fs d r.2 r.1 := by
  obtain ⟨b, bs, rfl⟩ := List.exists_cons_of_length_pos
    (Nat.zero_lt_of_lt (hR.readTag_some ht))
  rw [merge_cons hR hfs, ht, Option.bind_some]

theorem readField_of_mem (hfs : Lawful R fs) {f : FieldSpec U α} (hf : f ∈ fs)
    {w : WireType} {r : Reader U α} (hr : f.reads w = some r) (d : ℕ) :
    readField R fs d f.number w = r := by
  have hfind : fs.find? (·.number = f.number) = some f := by
    obtain ⟨g, hg⟩ : ∃ g, fs.find? (·.number = f.number) = some g :=
      Option.isSome_iff_exists.mp (List.find?_isSome.mpr ⟨f, hf, by simp⟩)
    have hnum : g.number = f.number := by simpa using List.find?_some hg
    rw [hg, List.inj_on_of_nodup_map hfs.nodup (List.mem_of_find?_eq_some hg) hf hnum]
  funext input m
  unfold readField
  rw [hfind, Option.bind_some, hr]

/-! #### Writing and parsing -/

/-- What the parser keeps as an unknown field. -/
def Foreign (R : Runtime U) (fs : List (FieldSpec U α)) (d : ℕ) (u : U) : Prop :=
  ∃ n w, ∀ rest, ∃ t, R.readTag (R.writeUnknown [u] ++ rest) = some (n, w, t) ∧
    ∀ m, readField R fs d n w t m = some (m.addUnknown u, rest)

/-- A message that can be written: the fields hold values of their types, and
the other fields would not be taken for fields of the type. -/
structure WellFormed (R : Runtime U) (fs : List (FieldSpec U α)) (d : ℕ) (x : Message U α) :
    Prop where
  valid : ∀ f ∈ fs, f.Valid x.fields
  foreign : ∀ u ∈ x.unknown, Foreign R fs d u

theorem merge_writeUnknown (hR : R.Lawful) (hfs : ∀ f ∈ fs, f.Lawful R) {us : List U}
    (hus : ∀ u ∈ us, Foreign R fs d u) (rest : List UInt8) (m : Message U α) :
    merge R fs d (R.writeUnknown us ++ rest) m =
      merge R fs d rest { m with unknown := m.unknown ++ us } := by
  induction us generalizing m with
  | nil => rw [hR.unknown_nil, List.nil_append, List.append_nil]
  | cons u us ih =>
    obtain ⟨n, w, hu⟩ := hus u List.mem_cons_self
    obtain ⟨t, ht, hread⟩ := hu (R.writeUnknown us ++ rest)
    rw [hR.unknown_cons, List.append_assoc, merge_readTag hR hfs d ht, hread, Option.bind_some,
      ih fun g hg => hus g (List.mem_cons_of_mem u hg)]
    simp [Message.addUnknown]

/-- The fields of the type, one after the other; `gs` are those still to come. -/
theorem merge_writeFields (hR : R.Lawful) (hfs : Lawful R fs) (hgs : ∀ f ∈ gs, f ∈ fs)
    {x : α} (hvalid : ∀ f ∈ gs, f.Valid x)
    (hlen : (gs.flatMap (·.write x)).length < 2 ^ 31) (rest : List UInt8) (m : Message U α) :
    merge R fs d (gs.flatMap (·.write x) ++ rest) m =
      merge R fs d rest (m.update fun y => gs.foldl (fun y f => f.merge y x) y) := by
  induction gs generalizing m with
  | nil => rfl
  | cons f gs ih =>
    have hf := hgs f List.mem_cons_self
    rw [List.flatMap_cons, List.length_append] at hlen
    have hstep {w : WireType} {r : Reader U α} {input t : List UInt8} (hr : f.reads w = some r)
        (ht : R.readTag input = some (f.number, w, t)) (m : Message U α) :
        merge R fs d input m = (r t m).bind fun p => merge R fs d p.2 p.1 := by
      rw [merge_readTag hR hfs.field d ht, readField_of_mem hfs hf hr]
    rw [List.flatMap_cons, List.append_assoc,
      (hfs.field f hf).reads_write hstep (hvalid f List.mem_cons_self) (by omega),
      ih (fun g hg => hgs g (List.mem_cons_of_mem f hg))
        (fun g hg => hvalid g (List.mem_cons_of_mem f hg)) (by omega)]
    rfl

/-- **Parsing what was written merges it.** -/
theorem merge_serialize (hR : R.Lawful) (hfs : Lawful R fs) {x : Message U α}
    (hx : WellFormed R fs d x) (hlen : (serialize R fs x).length < 2 ^ 31) (rest : List UInt8)
    (m : Message U α) :
    merge R fs d (serialize R fs x ++ rest) m = merge R fs d rest (mergeFrom fs m x) := by
  unfold serialize at hlen ⊢
  rw [List.length_append] at hlen
  rw [List.append_assoc, merge_writeFields hR hfs (fun _ hf => hf) hx.valid (by omega),
    merge_writeUnknown hR hfs.field hx.foreign]
  rfl

theorem sum_size_eq (hgs : ∀ f ∈ gs, f.Lawful R) {x : α}
    (hvalid : ∀ f ∈ gs, f.Valid x) (hlen : (gs.flatMap (·.write x)).length < 2 ^ 31) :
    (gs.map (·.size x)).sum = (gs.flatMap (·.write x)).length := by
  induction gs with
  | nil => rfl
  | cons f gs ih =>
    rw [List.flatMap_cons, List.length_append] at hlen ⊢
    rw [List.map_cons, List.sum_cons,
      (hgs f List.mem_cons_self).size_eq (hvalid f List.mem_cons_self) (by omega),
      ih (fun g hg => hgs g (List.mem_cons_of_mem f hg))
        (fun g hg => hvalid g (List.mem_cons_of_mem f hg)) (by omega)]

/-- **The size is known before writing.** -/
theorem byteSize_eq (hR : R.Lawful) (hfs : Lawful R fs) {x : Message U α}
    (hvalid : ∀ f ∈ fs, f.Valid x.fields) (hlen : (serialize R fs x).length < 2 ^ 31) :
    byteSize R fs x = (serialize R fs x).length := by
  unfold serialize at hlen ⊢
  rw [List.length_append] at hlen ⊢
  unfold byteSize
  rw [sum_size_eq hfs.field hvalid (by omega), hR.unknownSize (by omega)]

/-! #### What is accepted -/

/-- The readers of a field keep the values within their types; a payload that
the field refuses is kept, and would be refused again. -/
def FieldSpec.Keeps (R : Runtime U) (fs : List (FieldSpec U α)) (d : ℕ) (f : FieldSpec U α) :
    Prop :=
  ∀ {w r}, f.reads w = some r → ∀ {input m m' rest}, r input m = some (m', rest) →
    WellFormed R fs d m → WellFormed R fs d m'

theorem readField_wellFormed (hR : R.Lawful) (hkeep : ∀ f ∈ fs, f.Keeps R fs d) {n : ℕ}
    {w : WireType} {input t rest : List UInt8} {m m' : Message U α}
    (ht : R.readTag input = some (n, w, t)) (h : readField R fs d n w t m = some (m', rest))
    (hm : WellFormed R fs d m) : WellFormed R fs d m' := by
  cases hr : (fs.find? (·.number = n)).bind (·.reads w) with
  | some r =>
    have h : r t m = some (m', rest) := by
      simpa only [readField, hr] using h
    obtain ⟨f, hf, hr⟩ := Option.bind_eq_some_iff.mp hr
    exact hkeep f (List.mem_of_find?_eq_some hf) hr h hm
  | none =>
    simp only [readField, hr] at h
    obtain ⟨hw, h⟩ := Option.ite_none_left_eq_some.mp h
    obtain ⟨⟨u, rest'⟩, hu, he⟩ := Option.map_eq_some_iff.mp h
    obtain ⟨rfl, rfl⟩ := Prod.mk.inj he
    refine ⟨hm.valid, fun g hg => ?_⟩
    rcases List.mem_append.mp hg with hg | hg
    · exact hm.foreign g hg
    · obtain rfl := List.mem_singleton.mp hg
      refine ⟨n, w, fun rest' => ?_⟩
      obtain ⟨t', ht', hskip⟩ := (hR.skipped ht hw hu).2 rest'
      refine ⟨t', ht', fun m => ?_⟩
      simp only [readField, hr, if_neg hw, hskip, Option.map_some]

/-- **What the parser accepts can be written.** -/
theorem merge_wellFormed (hR : R.Lawful) (hfs : ∀ f ∈ fs, f.Lawful R)
    (hkeep : ∀ f ∈ fs, f.Keeps R fs d) {input : List UInt8} {m m' : Message U α}
    (h : merge R fs d input m = some m') (hm : WellFormed R fs d m) : WellFormed R fs d m' := by
  induction hn : input.length using Nat.strong_induction_on generalizing input m with
  | _ n ih =>
    cases input with
    | nil =>
      obtain rfl := Option.some.inj h
      exact hm
    | cons b bs =>
      rw [merge_cons hR hfs] at h
      obtain ⟨⟨n', w, t⟩, ht, h⟩ := Option.bind_eq_some_iff.mp h
      obtain ⟨⟨m₁, rest⟩, hr, h⟩ := Option.bind_eq_some_iff.mp h
      have hlen := hR.readTag_some ht
      have hrest : rest.length ≤ t.length := readField_consumes hR hfs ht hr
      exact ih rest.length (by omega) h (readField_wellFormed hR hkeep ht hr hm) rfl

end Xkim.Wire
