/-
MsgHandler/BinaryProtocol.lean

The binary protocol of Thrift, as its documentation describes it: a protocol that
keeps the laws.

Numbers are in network order, a string is its length and its bytes, a field begins
with its type and number, and nothing is written where a struct or a field ends.  It
is an instance of `Protocol` (`binary`), so that what is proved for every lawful
protocol can be seen on bytes; nothing else rests on it.
-/
import MsgHandler.Thrift

namespace Xkim.Thrift

open Reader

/-- What the protocol throws. -/
inductive TFault
  | endOfFile
  | negativeSize
  | badVersion
  deriving DecidableEq, Repr

/-! ### Fixed-width numbers -/

/-- The `k` bytes of a number in network order. -/
def toBytes : ℕ → ℕ → List UInt8
  | 0, _ => []
  | k + 1, v => toBytes k (v / 256) ++ [UInt8.ofNat v]

/-- The number that bytes in network order spell. -/
def ofBytes (bs : List UInt8) : ℕ := bs.foldl (fun v b => v * 256 + b.toNat) 0

@[simp]
theorem length_toBytes (k v : ℕ) : (toBytes k v).length = k := by
  induction k generalizing v with
  | zero => rfl
  | succ k ih => rw [toBytes, List.length_append, ih, List.length_singleton]

theorem ofBytes_toBytes (k v : ℕ) : ofBytes (toBytes k v) = v % 256 ^ k := by
  induction k generalizing v with
  | zero => rw [pow_zero, Nat.mod_one]; rfl
  | succ k ih =>
    have hlast : ofBytes (toBytes (k + 1) v) =
        ofBytes (toBytes k (v / 256)) * 256 + (UInt8.ofNat v).toNat := by
      simp only [ofBytes, toBytes, List.foldl_append, List.foldl_cons, List.foldl_nil]
    have hmod : v % (256 * 256 ^ k) = v % 256 + 256 * (v / 256 % 256 ^ k) := Nat.mod_mul
    rw [hlast, ih, UInt8.toNat_ofNat', pow_succ' 256 k, hmod]
    omega

/-- The size of anything that can be written. -/
theorem isInt_four {n : ℕ} (h : n < 2 ^ 31) : IsInt 4 n := by
  unfold IsInt
  rw [Int.bmod_eq_emod]
  split <;> omega

/-- So many bytes, unless the stream ends before. -/
def readAll (len : ℕ) : Reader TFault (List UInt8) := fun s =>
  if len ≤ s.length then (.ok (s.take len), s.drop len) else (.error (.thrown .endOfFile), [])

theorem readAll_reads (bs : List UInt8) : Reads (readAll bs.length) bs bs := by
  intro rest
  unfold readAll
  rw [if_pos (by rw [List.length_append]; omega), List.take_left, List.drop_left]

/-- One byte. -/
def readByte : Reader TFault UInt8 := do
  let bs ← readAll 1
  pure (bs.headD 0)

theorem readByte_reads (b : UInt8) : Reads readByte [b] b :=
  (readAll_reads [b]).bind_nil (.pure b)

/-- The number that bytes spell in two's complement. -/
def toInt (bs : List UInt8) : ℤ := (ofBytes bs : ℤ).bmod (256 ^ bs.length)

/-- A number of `k` bytes. -/
def readInt (k : ℕ) : Reader TFault ℤ := do
  let bs ← readAll k
  pure (toInt bs)

def writeInt (k : ℕ) (v : ℤ) : List UInt8 := toBytes k (v % 256 ^ k).toNat

@[simp]
theorem length_writeInt (k : ℕ) (v : ℤ) : (writeInt k v).length = k := length_toBytes k _

theorem toInt_writeInt {k : ℕ} {v : ℤ} (hv : IsInt k v) : toInt (writeInt k v) = v := by
  have hpos : (0 : ℤ) < 256 ^ k := by positivity
  have hnn : 0 ≤ v % 256 ^ k := Int.emod_nonneg _ hpos.ne'
  have htwice := Int.emod_bmod (v % 256 ^ k) (256 ^ k)
  have honce := Int.emod_bmod v (256 ^ k)
  push_cast at htwice honce
  unfold toInt
  rw [length_writeInt, writeInt, ofBytes_toBytes, Int.natCast_mod, Int.toNat_of_nonneg hnn]
  push_cast
  rw [htwice, honce]
  exact hv

theorem readAll_writeInt (k : ℕ) (v : ℤ) : Reads (readAll k) (writeInt k v) (writeInt k v) := by
  have h := readAll_reads (writeInt k v)
  rwa [length_writeInt] at h

theorem readInt_reads {k : ℕ} {v : ℤ} (hv : IsInt k v) : Reads (readInt k) (writeInt k v) v := by
  refine (readAll_writeInt k v).bind_nil ?_
  rw [toInt_writeInt hv]
  exact .pure v

/-- The size in front of a string or a container, which must not be negative. -/
def readSize : Reader TFault ℕ := do
  let size ← readInt 4
  if size < 0 then fail (.thrown .negativeSize) else pure size.toNat

theorem readSize_reads {n : ℕ} (h : n < 2 ^ 31) : Reads readSize (writeInt 4 n) n := by
  refine (readInt_reads (isInt_four h)).bind_nil ?_
  rw [if_neg (by omega), Int.toNat_natCast]
  exact .pure n

/-- A size and that many bytes. -/
def readBinary : Reader TFault (List UInt8) := do
  let size ← readSize
  readAll size

def writeBinary (str : List UInt8) : List UInt8 := writeInt 4 str.length ++ str

theorem readBinary_reads {str : List UInt8} (h : str.length < 2 ^ 31) :
    Reads readBinary (writeBinary str) str :=
  (readSize_reads h).bind (readAll_reads str)

/-! ### Fields -/

/-- The type that a byte names. -/
def TType.ofCode (b : UInt8) : TType :=
  match b.toNat with
  | 0 => stop
  | 8 => i32
  | 10 => i64
  | 11 => string
  | 12 => struct
  | n => other n

/-- The byte that names a type. -/
def TType.code : TType → UInt8
  | stop => 0
  | i32 => 8
  | i64 => 10
  | string => 11
  | struct => 12
  | other n => UInt8.ofNat n

/-- The type and the number of a field; behind a stop there is no number. -/
def readFieldBegin : Reader TFault (TType × ℤ) := do
  let type ← readByte
  if TType.ofCode type = .stop then pure (.stop, 0)
  else do
    let id ← readInt 2
    pure (.ofCode type, id)

theorem readFieldBegin_stop : Reads readFieldBegin [0] (.stop, 0) :=
  (readByte_reads 0).bind_nil (.pure _)

theorem readFieldBegin_reads {k : UInt8} {i : ℤ} (hk : TType.ofCode k ≠ .stop)
    (hid : IsInt 2 i) : Reads readFieldBegin ([k] ++ writeInt 2 i) (.ofCode k, i) := by
  refine (readByte_reads k).bind ?_
  rw [if_neg hk]
  exact (readInt_reads hid).bind_nil (.pure _)

/-- The fields of a struct up to the stop, each skipped by `sk`. -/
def skipFields (sk : TType → Reader TFault Unit) : ℕ → Reader TFault Unit
  | 0 => fail .unending
  | n + 1 => do
    let f ← readFieldBegin
    if f.1 = .stop then pure ()
    else do
      sk f.1
      skipFields sk n

/-- So many times. -/
def skipMany (m : Reader TFault Unit) : ℕ → Reader TFault Unit
  | 0 => pure ()
  | n + 1 => do
    m
    skipMany m n

/-- A value that is passed over, nested at most `d` deep.  A value that has others in it
begins with a byte of its own, so the depth is less than the number of bytes. -/
def skipTo : ℕ → TType → Reader TFault Unit
  | 0, _ => fail .unending
  | d + 1, t =>
    match t with
    | .other 2 | .other 3 => do let _ ← readAll 1
    | .other 6 => do let _ ← readAll 2
    | .i32 => do let _ ← readAll 4
    | .i64 | .other 4 => do let _ ← readAll 8
    | .string => do let _ ← readBinary
    | .struct => fun s => skipFields (skipTo d) (s.length + 1) s
    | .other 13 => do
      let k ← readByte
      let v ← readByte
      let size ← readSize
      skipMany (do skipTo d (.ofCode k); skipTo d (.ofCode v)) size
    | .other 14 | .other 15 => do
      let k ← readByte
      let size ← readSize
      skipMany (skipTo d (.ofCode k)) size
    | _ => pure ()

def skip (t : TType) : Reader TFault Unit := fun s => skipTo (s.length + 1) t s

/-- The depth is enough. -/
theorem skip_reads {t : TType} {bs : List UInt8}
    (h : ∀ d, bs.length ≤ d → Reads (skipTo (d + 1) t) bs ()) : Reads (skip t) bs () := by
  intro rest
  exact h (bs ++ rest).length (by rw [List.length_append]; omega) rest

theorem skip_i64 (v : ℤ) : Reads (skip .i64) (writeInt 8 v) () := by
  refine skip_reads fun d _ => ?_
  show Reads (do let _ ← readAll 8) _ ()
  exact (readAll_writeInt 8 v).bind_nil (.pure ())

theorem skip_string {str : List UInt8} (h : str.length < 2 ^ 31) :
    Reads (skip .string) (writeBinary str) () := by
  refine skip_reads fun d _ => ?_
  show Reads (do let _ ← readBinary) _ ()
  exact (readBinary_reads h).bind_nil (.pure ())

/-! ### Messages -/

/-- The type that the low byte of the first word names. -/
def TMessageType.ofCode : ℕ → TMessageType
  | 1 => call
  | 2 => reply
  | 3 => exception
  | n => other n

/-- The low byte of the first word. -/
def TMessageType.code : TMessageType → ℕ
  | call => 1
  | reply => 2
  | exception => 3
  | other n => n

/-- The head of a message, with the version in front. -/
def writeMessageBegin (name : List UInt8) (type : TMessageType) (seqid : ℤ) : List UInt8 :=
  writeInt 4 (0x80010000 + type.code - 2 ^ 32) ++ (writeBinary name ++ writeInt 4 seqid)

/-- A message without a version begins with the length of its name. -/
def readMessageBegin : Reader TFault (List UInt8 × TMessageType × ℤ) := do
  let sz ← readInt 4
  if sz < 0 then
    if (sz + 2 ^ 32) / 2 ^ 16 ≠ 0x8001 then fail (.thrown .badVersion)
    else do
      let name ← readBinary
      let seqid ← readInt 4
      pure (name, .ofCode (sz % 256).toNat, seqid)
  else do
    let name ← readAll sz.toNat
    let type ← readByte
    let seqid ← readInt 4
    pure (name, .ofCode type.toNat, seqid)

theorem readMessageBegin_reads {name : List UInt8} {type : TMessageType} {seqid : ℤ}
    (hname : name.length < 2 ^ 31) (htype : type.Written) (hseqid : IsInt 4 seqid) :
    Reads readMessageBegin (writeMessageBegin name type seqid) (name, type, seqid) := by
  obtain ⟨hword, hneg, hversion, hcode⟩ : IsInt 4 (0x80010000 + type.code - 2 ^ 32) ∧
      (0x80010000 + type.code - 2 ^ 32 : ℤ) < 0 ∧
      ¬ ((0x80010000 + type.code - 2 ^ 32 + 2 ^ 32 : ℤ) / 2 ^ 16 ≠ 0x8001) ∧
      TMessageType.ofCode ((0x80010000 + type.code - 2 ^ 32 : ℤ) % 256).toNat = type := by
    rcases type with - | - | - | n
    · decide
    · decide
    · decide
    · simp [TMessageType.Written] at htype
  refine (readInt_reads hword).bind ?_
  rw [if_pos hneg, if_neg hversion, hcode]
  exact (readBinary_reads hname).bind ((readInt_reads hseqid).bind_nil (.pure _))

/-! ### The protocol -/

/-- The binary protocol. -/
def binary : Protocol TFault where
  readMessageBegin := readMessageBegin
  writeMessageBegin := writeMessageBegin
  readMessageEnd := pure ()
  writeMessageEnd := []
  readStructBegin := pure ()
  writeStructBegin _ := []
  readStructEnd := pure ()
  writeStructEnd := []
  readFieldBegin := readFieldBegin
  writeFieldBegin _ t id := [t.code] ++ writeInt 2 id
  readFieldEnd := pure ()
  writeFieldEnd := []
  writeFieldStop := [0]
  readI32 := readInt 4
  writeI32 := writeInt 4
  readI64 := readInt 8
  writeI64 := writeInt 8
  readBinary := readBinary
  writeBinary := writeBinary
  skip := skip

/-- **The binary protocol keeps the laws.** -/
theorem binary_lawful : binary.Lawful where
  messageBegin := readMessageBegin_reads
  messageEnd := .pure ()
  structBegin _ := .pure ()
  structEnd := .pure ()
  fieldBegin := by
    intro name t id ht hid
    have hcode : TType.ofCode t.code = t ∧ t ≠ .stop := by
      rcases t with - | - | - | - | - | n
      · exact absurd ht (by decide)
      · decide
      · decide
      · decide
      · decide
      · simp [TType.Written] at ht
    have h := readFieldBegin_reads (k := t.code) (hcode.1.symm ▸ hcode.2) hid
    rwa [hcode.1] at h
  fieldBegin_ne _ _ _ h := nomatch h
  fieldEnd := .pure ()
  fieldStop := ⟨0, readFieldBegin_stop⟩
  i32 := readInt_reads
  i64 := readInt_reads
  binary := readBinary_reads

/-- An exception as it is sent: a text and a number. -/
structure TApplicationException where
  message : List UInt8 := []
  type : ℤ := 0
  deriving DecidableEq, Repr

namespace TApplicationException

/-- The fields that are read. -/
def cases (x : TApplicationException) (t : TType) (id : ℤ) :
    Option (Reader TFault TApplicationException) :=
  if id = 1 ∧ t = .string then
    some do
      let message ← readBinary
      pure { x with message }
  else if id = 2 ∧ t = .i32 then
    some do
      let type ← readInt 4
      pure { x with type }
  else none

/-- The fields that are written. -/
def fields (x : TApplicationException) : List Field :=
  [binary.field "message" .string 1 (writeBinary x.message),
    binary.field "type" .i32 2 (writeInt 4 x.type)]

theorem read_write {x : TApplicationException} (hmessage : x.message.length < 2 ^ 31)
    (htype : IsInt 4 x.type) :
    Reads (binary.readStruct cases {}) (binary.writeStruct "TApplicationException" x.fields) x := by
  have hfirst (a : TApplicationException) : Reads (readBinary >>= fun v =>
      (Pure.pure { a with message := v } : Reader TFault _)) (writeBinary x.message)
      { a with message := x.message } :=
    (readBinary_reads hmessage).bind_nil (.pure _)
  have hsecond (a : TApplicationException) : Reads (readInt 4 >>= fun v =>
      (Pure.pure { a with type := v } : Reader TFault _)) (writeInt 4 x.type)
      { a with type := x.type } :=
    (readInt_reads htype).bind_nil (.pure _)
  have hmessage : Protocol.applyField cases {}
      (binary.field "message" .string 1 (writeBinary x.message)) = ⟨x.message, 0⟩ :=
    Protocol.applyField_of_reads rfl (hfirst {})
  have htype : Protocol.applyField cases ⟨x.message, 0⟩
      (binary.field "type" .i32 2 (writeInt 4 x.type)) = x :=
    Protocol.applyField_of_reads rfl (hsecond _)
  suffices h : Reads (binary.readStruct cases {})
      (binary.writeStruct "TApplicationException" x.fields)
      (x.fields.foldl (Protocol.applyField cases) {}) by
    rwa [fields, List.foldl_cons, List.foldl_cons, List.foldl_nil, hmessage, htype] at h
  refine Protocol.readStruct_written binary_lawful (List.forall_mem_cons.mpr
    ⟨?_, List.forall_mem_singleton.mpr ?_⟩) "TApplicationException" _
  · exact ⟨binary_lawful.found _ _ (by decide) (by decide), fun a => ⟨_, _, rfl, hfirst a⟩⟩
  · exact ⟨binary_lawful.found _ _ (by decide) (by decide), fun a => ⟨_, _, rfl, hsecond a⟩⟩

end TApplicationException

/-- Exceptions over the binary protocol. -/
def binaryException : AppException TFault TApplicationException where
  unknownMethod := 1
  missingResult := 5
  make type what := ⟨what, type⟩
  ofMessage what := ⟨what, 0⟩
  read := binary.readStruct TApplicationException.cases {}
  write x := binary.writeStruct "TApplicationException" x.fields

theorem binaryException_lawful : binaryException.Lawful where
  ofMessage hwhat := TApplicationException.read_write hwhat (show IsInt 4 0 by decide)

end Xkim.Thrift
