/-
MsgHandler/WireBytes.lean

The wire format as protobuf documents it: a runtime that keeps the laws.

A tag is the number and the wire type in one numeral, and a string is its length and
its bytes.  Groups, which are deprecated, are refused.  The runtime (`documented`) is
an instance of `Runtime`, so that what is proved for every lawful runtime can be seen
on bytes; nothing else rests on it.
-/
import MsgHandler.Varint

namespace Xkim.Wire

/-! ### Tags -/

namespace WireType

/-- The low three bits of a tag. -/
def code : WireType → ℕ
  | varint => 0
  | fixed64 => 1
  | lengthDelimited => 2
  | startGroup => 3
  | endGroup => 4
  | fixed32 => 5

/-- The wire type of a tag. -/
def ofCode : ℕ → Option WireType
  | 0 => some varint
  | 1 => some fixed64
  | 2 => some lengthDelimited
  | 3 => some startGroup
  | 4 => some endGroup
  | 5 => some fixed32
  | _ => none

@[simp]
theorem ofCode_code (w : WireType) : ofCode w.code = some w := by cases w <;> rfl

theorem code_lt (w : WireType) : w.code < 8 := by cases w <;> decide

end WireType

/-- A tag that can stand in front of a field: it is a word and not zero. -/
def IsTag (number : ℕ) (w : WireType) : Prop :=
  number * 8 + w.code < 2 ^ 32 ∧ number * 8 + w.code ≠ 0

instance (number : ℕ) (w : WireType) : Decidable (IsTag number w) :=
  inferInstanceAs (Decidable (_ ∧ _))

def writeTag (number : ℕ) (w : WireType) : List UInt8 := writeVarint (number * 8 + w.code)

/-- A tag of zero does not begin a field. -/
def readTag (input : List UInt8) : Option (ℕ × WireType × List UInt8) :=
  (readVarint32 input).bind fun r =>
    if r.1 = 0 then none
    else (WireType.ofCode (r.1 % 8)).map fun w => (r.1 / 8, w, r.2)

theorem readTag_writeTag {number : ℕ} {w : WireType} (h : IsTag number w) (rest : List UInt8) :
    readTag (writeTag number w ++ rest) = some (number, w, rest) := by
  have hw := w.code_lt
  have hdiv : (number * 8 + w.code) / 8 = number := by omega
  have hmod : (number * 8 + w.code) % 8 = w.code := by omega
  unfold readTag writeTag
  rw [readVarint32_append (by have := h.1; omega), Nat.mod_eq_of_lt h.1]
  simp only [Option.bind_some]
  rw [if_neg h.2, hmod, hdiv, WireType.ofCode_code]
  rfl

/-- What a tag that was read is, and that it was read from the front. -/
theorem readTag_some {input rest : List UInt8} {number : ℕ} {w : WireType}
    (h : readTag input = some (number, w, rest)) :
    IsTag number w ∧ rest.length < input.length := by
  obtain ⟨r, hr, h⟩ := Option.bind_eq_some_iff.mp h
  split at h
  · cases h
  · rename_i hne
    obtain ⟨w', hw, he⟩ := Option.map_eq_some_iff.mp h
    simp only [Prod.mk.injEq] at he
    obtain ⟨rfl, rfl, rfl⟩ := he
    obtain ⟨hlt, hlen⟩ : r.1 < 2 ^ 32 ∧ r.2.length < input.length := readVarint32_lt hr
    have hcode : w'.code = r.1 % 8 := by
      have := Nat.mod_lt r.1 (by norm_num : 0 < 8)
      interval_cases hm : r.1 % 8 <;> simp only [WireType.ofCode, Option.some.injEq, reduceCtorEq]
        at hw <;> subst hw <;> rfl
    refine ⟨⟨?_, ?_⟩, hlen⟩ <;> omega

/-! ### Payloads -/

/-- `n` bytes as they are. -/
def readRaw (n : ℕ) (input : List UInt8) : Option (List UInt8 × List UInt8) :=
  if n ≤ input.length then some (input.take n, input.drop n) else none

theorem readRaw_append {b : List UInt8} {n : ℕ} (h : b.length = n) (rest : List UInt8) :
    readRaw n (b ++ rest) = some (b, rest) := by
  subst h
  unfold readRaw
  rw [if_pos (by simp), List.take_left, List.drop_left]

theorem readRaw_some {input b rest : List UInt8} {n : ℕ} (h : readRaw n input = some (b, rest)) :
    b.length = n ∧ rest.length ≤ input.length := by
  unfold readRaw at h
  split at h
  · obtain ⟨rfl, rfl⟩ := Prod.mk.inj (Option.some.inj h)
    rw [List.length_take, List.length_drop]
    omega
  · cases h

/-- A length and that many bytes. -/
def writeBytes (b : List UInt8) : List UInt8 := writeVarint b.length ++ b

def readBytes (input : List UInt8) : Option (List UInt8 × List UInt8) :=
  (readVarint32 input).bind fun r => readRaw r.1 r.2

theorem readBytes_append {b : List UInt8} (h : b.length < 2 ^ 32) (rest : List UInt8) :
    readBytes (writeBytes b ++ rest) = some (b, rest) := by
  unfold readBytes writeBytes
  rw [List.append_assoc, readVarint32_append (by omega), Nat.mod_eq_of_lt h]
  exact readRaw_append rfl rest

theorem readBytes_some {input b rest : List UInt8} (h : readBytes input = some (b, rest)) :
    b.length < 2 ^ 32 ∧ rest.length ≤ input.length := by
  obtain ⟨r, hr, h⟩ := Option.bind_eq_some_iff.mp h
  obtain ⟨hlt, hlen⟩ : r.1 < 2 ^ 32 ∧ r.2.length < input.length := readVarint32_lt hr
  obtain ⟨hb, hrest⟩ := readRaw_some h
  exact ⟨hb ▸ hlt, by omega⟩

/-! ### Fields that are kept as they came -/

/-- The payload of a field of an unknown number. -/
inductive Payload
  | varint (value : ℕ)
  | fixed64 (value : List UInt8)
  | lengthDelimited (value : List UInt8)
  | fixed32 (value : List UInt8)
  deriving DecidableEq, Repr

namespace Payload

def wireType : Payload → WireType
  | varint _ => .varint
  | fixed64 _ => .fixed64
  | lengthDelimited _ => .lengthDelimited
  | fixed32 _ => .fixed32

def write : Payload → List UInt8
  | varint v => writeVarint v
  | fixed64 b | fixed32 b => b
  | lengthDelimited b => writeBytes b

def read : WireType → List UInt8 → Option (Payload × List UInt8)
  | .varint, input => (readVarint64 input).map fun r => (.varint r.1, r.2)
  | .fixed64, input => (readRaw 8 input).map fun r => (.fixed64 r.1, r.2)
  | .lengthDelimited, input => (readBytes input).map fun r => (.lengthDelimited r.1, r.2)
  | .fixed32, input => (readRaw 4 input).map fun r => (.fixed32 r.1, r.2)
  | .startGroup, _ | .endGroup, _ => none

/-- The number and the sizes fit their types. -/
def Valid : Payload → Prop
  | varint v => v < 2 ^ 64
  | fixed64 b => b.length = 8
  | lengthDelimited b => b.length < 2 ^ 32
  | fixed32 b => b.length = 4

theorem read_write {p : Payload} (h : p.Valid) (rest : List UInt8) :
    read p.wireType (p.write ++ rest) = some (p, rest) := by
  cases p with
  | varint v => exact congrArg (Option.map _) (readVarint64_append h rest)
  | fixed64 b => exact congrArg (Option.map _) (readRaw_append h rest)
  | lengthDelimited b => exact congrArg (Option.map _) (readBytes_append h rest)
  | fixed32 b => exact congrArg (Option.map _) (readRaw_append h rest)

theorem read_some {w : WireType} {input rest : List UInt8} {p : Payload}
    (h : read w input = some (p, rest)) :
    p.wireType = w ∧ p.Valid ∧ rest.length ≤ input.length := by
  cases w with
  | startGroup | endGroup => cases h
  | varint =>
    obtain ⟨r, hr, he⟩ := Option.map_eq_some_iff.mp h
    obtain ⟨rfl, rfl⟩ := Prod.mk.inj he
    obtain ⟨hv, hlen⟩ : r.1 < 2 ^ 64 ∧ r.2.length < input.length := readVarint64_lt hr
    exact ⟨rfl, hv, hlen.le⟩
  | fixed64 | fixed32 =>
    obtain ⟨r, hr, he⟩ := Option.map_eq_some_iff.mp h
    obtain ⟨rfl, rfl⟩ := Prod.mk.inj he
    exact ⟨rfl, readRaw_some hr⟩
  | lengthDelimited =>
    obtain ⟨r, hr, he⟩ := Option.map_eq_some_iff.mp h
    obtain ⟨rfl, rfl⟩ := Prod.mk.inj he
    exact ⟨rfl, readBytes_some hr⟩

end Payload

/-- A field of an unknown number. -/
structure UnknownField where
  number : ℕ
  payload : Payload
  deriving DecidableEq, Repr

namespace UnknownField

def write (u : UnknownField) : List UInt8 := writeTag u.number u.payload.wireType ++ u.payload.write

def writeAll (us : List UnknownField) : List UInt8 := us.flatMap write

theorem writeAll_single (u : UnknownField) : writeAll [u] = u.write := List.append_nil _

end UnknownField

open UnknownField (writeAll writeAll_single)

/-! ### The runtime -/

/-- Numbers one behind the other. -/
def readPacked : ℕ → List UInt8 → Option (List ℤ)
  | _, [] => some []
  | 0, _ :: _ => none
  | k + 1, b :: bs =>
    (readVarint32 (b :: bs)).bind fun r => (readPacked k r.2).map (int32 r.1 :: ·)

/-- The input up to a length, and behind it.  The limit never lies beyond the end. -/
def readLimited (input : List UInt8) : Option (List UInt8 × List UInt8) :=
  (readVarint32 input).map fun r => (r.2.take r.1, r.2.drop r.1)

/-- How deep messages may be nested. -/
def recursionLimit : ℕ := 64

/-- The wire format. -/
def documented : Runtime UnknownField where
  readTag := readTag
  readInt32 input := (readVarint32 input).map fun r => (int32 r.1, r.2)
  writeInt32 n v := writeTag n .varint ++ writeVarint (signExtend v)
  int32Size v := (writeVarint (signExtend v)).length
  readEnum input := (readVarint32 input).map fun r => (int32 r.1, r.2)
  writeEnum n v := writeTag n .varint ++ writeVarint (signExtend v)
  enumSize v := (writeVarint (signExtend v)).length
  readBool input := (readVarint32 input).map fun r => (r.1 ≠ 0, r.2)
  writeBool n v := writeTag n .varint ++ writeVarint v.toNat
  readFloat := readRaw 4
  writeFloat n v := writeTag n .fixed32 ++ v
  readBytes := readBytes
  writeBytes n b := writeTag n .lengthDelimited ++ writeBytes b
  bytesSize b := (writeBytes b).length
  readPackedInt32 input := (readLimited input).bind fun r =>
    (readPacked r.1.length r.1).map fun vs => (vs, r.2)
  readLimited d input := if d < recursionLimit then readLimited input else none
  writeMessage n b := writeTag n .lengthDelimited ++ writeBytes b
  messageSize k := (writeVarint k).length + k
  skipField _ n w input := (Payload.read w input).map fun r => (⟨n, r.1⟩, r.2)
  addVarint n v := ⟨n, .varint (signExtend v)⟩
  writeUnknown := writeAll
  unknownSize us := (writeAll us).length

theorem IsNumber.isTag {n : ℕ} (h : IsNumber n) (w : WireType) : IsTag n w := by
  obtain ⟨hpos, hlt⟩ := h
  have := w.code_lt
  constructor <;> omega

/-- The tag of a field is one byte. -/
theorem length_writeTag {n : ℕ} (h : IsNumber n) (w : WireType) : (writeTag n w).length = 1 := by
  have hlt : n * 8 + w.code < 128 := by
    have := w.code_lt
    have := h.2
    omega
  rw [writeTag, writeVarint, varint, if_pos hlt]
  rfl

/-- A type whose payloads are written behind a tag. -/
theorem documented_carries {V : Type} {c : Scalar V} {p : V → List UInt8}
    (hwrite : ∀ n v, c.write n v = writeTag n c.wireType ++ p v)
    (hread : ∀ {v}, c.Valid v → (p v).length < 2 ^ 31 → ∀ rest,
      c.read (p v ++ rest) = some (v, rest))
    (hsome : ∀ {input v rest}, c.read input = some (v, rest) →
      c.Valid v ∧ rest.length ≤ input.length)
    (hsize : ∀ v, c.Valid v → c.size v = (p v).length) : documented.Carries c where
  reads := by
    intro n v hn hv hlen rest
    rw [hwrite, List.length_append] at hlen
    refine ⟨p v ++ rest, ?_, hread hv (by omega) rest⟩
    rw [hwrite, List.append_assoc]
    exact readTag_writeTag (hn.isTag _) _
  read_some := hsome
  size_eq := by
    intro n v hn hv _
    rw [hwrite, List.length_append, length_writeTag hn, hsize v hv]

theorem readInt_append {v : ℤ} (hv : IsInt32 v) (rest : List UInt8) :
    ((readVarint32 (writeVarint (signExtend v) ++ rest)).map fun r => (int32 r.1, r.2)) =
      some (v, rest) := by
  rw [readVarint32_append (signExtend_lt v), Option.map_some, int32_signExtend hv]

theorem readInt_some {input rest : List UInt8} {v : ℤ}
    (h : ((readVarint32 input).map fun r => (int32 r.1, r.2)) = some (v, rest)) :
    IsInt32 v ∧ rest.length ≤ input.length := by
  obtain ⟨r, hr, he⟩ := Option.map_eq_some_iff.mp h
  obtain ⟨rfl, rfl⟩ := Prod.mk.inj he
  have hr : readVarint32 input = some (r.1, r.2) := hr
  exact ⟨isInt32_int32 r.1, (readVarint32_lt hr).2.le⟩

theorem documented_int32 : documented.Carries documented.int32 :=
  documented_carries (fun _ _ => rfl) (fun hv _ => readInt_append hv) readInt_some fun _ _ => rfl

theorem documented_enum : documented.Carries documented.enum :=
  documented_carries (fun _ _ => rfl) (fun hv _ => readInt_append hv) readInt_some fun _ _ => rfl

theorem documented_bool : documented.Carries documented.bool := by
  refine documented_carries (p := fun v => writeVarint v.toNat) (fun _ _ => rfl) ?_ ?_ ?_
  · intro v _ _ rest
    have hv : v.toNat < 2 ^ 32 := by cases v <;> decide
    show (readVarint32 _).map _ = _
    rw [readVarint32_append (by omega), Option.map_some, Nat.mod_eq_of_lt hv]
    cases v <;> rfl
  · intro input v rest h
    obtain ⟨r, hr, he⟩ := Option.map_eq_some_iff.mp h
    obtain ⟨-, rfl⟩ := Prod.mk.inj he
    have hr : readVarint32 input = some (r.1, r.2) := hr
    exact ⟨trivial, (readVarint32_lt hr).2.le⟩
  · intro v _
    cases v <;> rfl

theorem documented_float : documented.Carries documented.float :=
  documented_carries (p := id) (fun _ _ => rfl) (fun hv _ => readRaw_append hv)
    readRaw_some fun _ hv => hv.symm

theorem documented_bytes : documented.Carries documented.bytes := by
  refine documented_carries (p := writeBytes) (fun _ _ => rfl) ?_ ?_ fun _ _ => rfl
  · intro b _ hlen rest
    rw [writeBytes, List.length_append] at hlen
    exact readBytes_append (by omega) rest
  · exact fun h => ⟨trivial, (readBytes_some h).2⟩

theorem readLimited_length {input b rest : List UInt8} (h : readLimited input = some (b, rest)) :
    rest.length ≤ input.length := by
  obtain ⟨⟨n, rest'⟩, hn, he⟩ := Option.map_eq_some_iff.mp h
  obtain ⟨-, rfl⟩ := Prod.mk.inj he
  have hlen : rest'.length < input.length := (readVarint32_lt hn).2
  show (rest'.drop n).length ≤ input.length
  rw [List.length_drop]
  omega

theorem documented_message {d : ℕ} (hd : d < 2) : documented.Carries (documented.message d) := by
  have hlimit : d < recursionLimit := hd.trans (by decide)
  refine documented_carries (p := writeBytes) (fun _ _ => rfl) ?_ ?_ ?_
  · intro b _ hlen rest
    rw [writeBytes, List.length_append] at hlen
    show (if d < recursionLimit then readLimited (writeBytes b ++ rest) else none) = _
    rw [if_pos hlimit, readLimited, writeBytes, List.append_assoc, readVarint32_append (by omega),
      Nat.mod_eq_of_lt (by omega), Option.map_some, List.take_left, List.drop_left]
  · intro input b rest h
    exact ⟨trivial, readLimited_length ((if_pos hlimit).symm.trans h)⟩
  · intro b _
    exact (List.length_append ..).symm

theorem readPacked_isInt32 {k : ℕ} {input : List UInt8} {vs : List ℤ}
    (h : readPacked k input = some vs) : ∀ v ∈ vs, IsInt32 v := by
  induction k generalizing input vs with
  | zero =>
    cases input with
    | nil =>
      obtain rfl := Option.some.inj h
      exact List.forall_mem_nil _
    | cons b bs => cases h
  | succ k ih =>
    cases input with
    | nil =>
      obtain rfl := Option.some.inj h
      exact List.forall_mem_nil _
    | cons b bs =>
      obtain ⟨r, -, h⟩ := Option.bind_eq_some_iff.mp h
      obtain ⟨vs', hvs, rfl⟩ := Option.map_eq_some_iff.mp h
      exact List.forall_mem_cons.mpr ⟨isInt32_int32 r.1, ih hvs⟩

theorem length_two_varints_le (n k : ℕ) : (writeVarint n ++ writeVarint k).length ≤ 20 := by
  have hn := length_writeVarint_le n
  have hk := length_writeVarint_le k
  rw [List.length_append]
  omega

theorem length_tagged_le (n : ℕ) (w : WireType) (b : List UInt8) :
    (writeTag n w ++ writeBytes b).length ≤ b.length + 20 := by
  have h := length_two_varints_le (n * 8 + w.code) b.length
  rw [List.length_append] at h
  rw [writeTag, writeBytes, List.length_append, List.length_append]
  omega

/-- **The wire format keeps the laws.** -/
theorem documented_lawful : documented.Lawful where
  readTag_some h := (readTag_some h).2
  int32 := documented_int32
  enum := documented_enum
  bool := documented_bool
  float := documented_float
  bytes := documented_bytes
  message := documented_message
  packed := by
    intro input vs rest h
    obtain ⟨⟨b, rest'⟩, hb, h⟩ := Option.bind_eq_some_iff.mp h
    obtain ⟨vs', hvs, he⟩ := Option.map_eq_some_iff.mp h
    obtain ⟨rfl, rfl⟩ := Prod.mk.inj he
    exact ⟨readPacked_isInt32 hvs, readLimited_length hb⟩
  skipped := by
    intro depth input n w t u rest ht _ hu
    obtain ⟨⟨p, rest'⟩, hp, he⟩ := Option.map_eq_some_iff.mp hu
    obtain ⟨rfl, rfl⟩ := Prod.mk.inj he
    obtain ⟨rfl, hvalid, hlen⟩ := Payload.read_some hp
    refine ⟨hlen, fun rest => ⟨p.write ++ rest, ?_, ?_⟩⟩
    · show readTag (writeAll [⟨n, p⟩] ++ rest) = _
      rw [writeAll_single, UnknownField.write, List.append_assoc]
      exact readTag_writeTag (readTag_some ht).1 _
    · exact congrArg (Option.map _) (Payload.read_write hvalid rest)
  added := by
    intro n v hn hv rest
    refine ⟨writeVarint (signExtend v) ++ rest, ?_, readInt_append hv rest⟩
    show readTag (writeAll [⟨n, .varint (signExtend v)⟩] ++ rest) = _
    rw [writeAll_single, UnknownField.write, List.append_assoc]
    exact readTag_writeTag (hn.isTag _) _
  unknown_nil := rfl
  unknown_cons u us := by
    show writeAll (u :: us) = writeAll [u] ++ writeAll us
    rw [writeAll_single]
    rfl
  unknownSize _ := rfl
  int32_short n v := length_two_varints_le _ _
  enum_short n v := length_two_varints_le _ _
  bool_short n v := length_two_varints_le _ _
  bytes_short n b := length_tagged_le n _ b
  message_short n b := length_tagged_le n _ b
  message_long n b := by
    show b.length ≤ (_ ++ (_ ++ b)).length
    rw [List.length_append, List.length_append]
    omega

end Xkim.Wire
