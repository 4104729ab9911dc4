/-
MsgHandler/Thrift.lean

Structs as code that Thrift has generated reads them.

Generated code calls a `TProtocol` for everything that goes over the wire.  The
protocol is a parameter here (`Protocol`), and what is assumed of it is the
structure `Protocol.Lawful`: what it has written it reads back.  When a reader stops
with an exception, the bytes behind are still there.  What it makes of bytes is said
by one relation,

    Reads m bs a :  for every rest,  m (bs ++ rest) = (.ok a, rest),

which composes along `bind`, so a proof about a reader follows its text.

A struct is a list of fields in any order, of which a reader picks the ones it
knows by number and type and skips the others (`readStruct_reads`).
-/
import Mathlib

namespace Xkim.Thrift

/-! ### Readers -/

/-- What stops a reader: an exception, or that its loop has no end. -/
inductive Fault (E : Type)
  | thrown (e : E)
  | unending
  deriving DecidableEq, Repr

/-- A reader of the bytes in its input: the value or the fault, and what is left. -/
def Reader (E α : Type) : Type := List UInt8 → Except (Fault E) α × List UInt8

namespace Reader

variable {E α β : Type}

instance : Monad (Reader E) where
  pure a := fun s => (.ok a, s)
  bind m f := fun s =>
    match m s with
    | (.ok a, s') => f a s'
    | (.error e, s') => (.error e, s')

/-- The reader that stops where it is. -/
def fail (e : Fault E) : Reader E α := fun s => (.error e, s)

/-- On `bs`, whatever follows, the reader yields `a` and stops behind `bs`. -/
def Reads (m : Reader E α) (bs : List UInt8) (a : α) : Prop :=
  ∀ rest, m (bs ++ rest) = (.ok a, rest)

theorem Reads.pure (a : α) : Reads (E := E) (Pure.pure a) [] a := fun _ => rfl

theorem Reads.bind {m : Reader E α} {f : α → Reader E β} {x y : List UInt8} {a : α} {b : β}
    (hm : Reads m x a) (hf : Reads (f a) y b) : Reads (m >>= f) (x ++ y) b := by
  intro rest
  show (match m (x ++ y ++ rest) with
    | (.ok a, s') => f a s'
    | (.error e, s') => (.error e, s')) = _
  rw [List.append_assoc, hm]
  exact hf rest

/-- The last step of a reader consumes nothing. -/
theorem Reads.bind_nil {m : Reader E α} {f : α → Reader E β} {x : List UInt8} {a : α} {b : β}
    (hm : Reads m x a) (hf : Reads (f a) [] b) : Reads (m >>= f) x b := by
  rw [← List.append_nil x]
  exact hm.bind hf

/-- What a reader makes of these bytes alone, or `d`. -/
def valueOf (m : Reader E α) (d : α) (bs : List UInt8) : α := (m bs).1.toOption.getD d

theorem Reads.valueOf {m : Reader E α} {bs : List UInt8} {a : α} (h : Reads m bs a) (d : α) :
    m.valueOf d bs = a := by
  have hbs := h []
  rw [List.append_nil] at hbs
  unfold Reader.valueOf
  rw [hbs]
  rfl

end Reader

open Reader

/-! ### Protocols -/

/-- `TType`, as far as generated code names the types. -/
inductive TType
  | stop
  | i32
  | i64
  | string
  | struct
  | other (code : ℕ)
  deriving DecidableEq, Repr

/-- The types of the fields that generated code writes. -/
def TType.Written (t : TType) : Prop := t ∈ [i32, i64, string, struct]

instance (t : TType) : Decidable t.Written := inferInstanceAs (Decidable (_ ∈ _))

/-- `TMessageType`, as far as generated code names the types. -/
inductive TMessageType
  | call
  | reply
  | exception
  | other (code : ℕ)
  deriving DecidableEq, Repr

/-- The types of the messages that generated code writes. -/
def TMessageType.Written (t : TMessageType) : Prop := t ∈ [call, reply, exception]

instance (t : TMessageType) : Decidable t.Written := inferInstanceAs (Decidable (_ ∈ _))

/-- A number that `k` bytes hold in two's complement. -/
def IsInt (k : ℕ) (v : ℤ) : Prop := v.bmod (256 ^ k) = v

instance (k : ℕ) (v : ℤ) : Decidable (IsInt k v) :=
  inferInstanceAs (Decidable (v.bmod (256 ^ k) = v))

/-- The functions of `TProtocol` that generated code calls; `E` are the exceptions
that they throw. -/
structure Protocol (E : Type) where
  readMessageBegin : Reader E (List UInt8 × TMessageType × ℤ)
  writeMessageBegin : List UInt8 → TMessageType → ℤ → List UInt8
  readMessageEnd : Reader E Unit
  writeMessageEnd : List UInt8
  readStructBegin : Reader E Unit
  writeStructBegin : String → List UInt8
  readStructEnd : Reader E Unit
  writeStructEnd : List UInt8
  readFieldBegin : Reader E (TType × ℤ)
  writeFieldBegin : String → TType → ℤ → List UInt8
  readFieldEnd : Reader E Unit
  writeFieldEnd : List UInt8
  writeFieldStop : List UInt8
  readI32 : Reader E ℤ
  writeI32 : ℤ → List UInt8
  readI64 : Reader E ℤ
  writeI64 : ℤ → List UInt8
  readBinary : Reader E (List UInt8)
  writeBinary : List UInt8 → List UInt8
  skip : TType → Reader E Unit

/-- What is assumed of a protocol: it reads back what it has written, whatever
comes before and behind. -/
structure Protocol.Lawful {E : Type} (P : Protocol E) : Prop where
  messageBegin : ∀ {name t seqid}, name.length < 2 ^ 31 → t.Written → IsInt 4 seqid →
    Reads P.readMessageBegin (P.writeMessageBegin name t seqid) (name, t, seqid)
  messageEnd : Reads P.readMessageEnd P.writeMessageEnd ()
  structBegin : ∀ name, Reads P.readStructBegin (P.writeStructBegin name) ()
  structEnd : Reads P.readStructEnd P.writeStructEnd ()
  fieldBegin : ∀ {name t id}, t.Written → IsInt 2 id →
    Reads P.readFieldBegin (P.writeFieldBegin name t id) (t, id)
  fieldBegin_ne : ∀ name t id, P.writeFieldBegin name t id ≠ []
  fieldEnd : Reads P.readFieldEnd P.writeFieldEnd ()
  fieldStop : ∃ id, Reads P.readFieldBegin P.writeFieldStop (.stop, id)
  i32 : ∀ {v}, IsInt 4 v → Reads P.readI32 (P.writeI32 v) v
  i64 : ∀ {v}, IsInt 8 v → Reads P.readI64 (P.writeI64 v) v
  binary : ∀ {str}, str.length < 2 ^ 31 → Reads P.readBinary (P.writeBinary str) str

/-- `TApplicationException`, whose values are of the type `X`. -/
structure AppException (E X : Type) where
  unknownMethod : ℤ
  missingResult : ℤ
  /-- The constructor with a type and a message. -/
  make : ℤ → List UInt8 → X
  /-- The constructor with a message. -/
  ofMessage : List UInt8 → X
  /-- `read`, into an exception that has just been made. -/
  read : Reader E X
  write : X → List UInt8

/-- What is assumed of it: an exception with a message is read back. -/
structure AppException.Lawful {E X : Type} (A : AppException E X) : Prop where
  ofMessage : ∀ {what}, what.length < 2 ^ 31 →
    Reads A.read (A.write (A.ofMessage what)) (A.ofMessage what)

/-! ### Structs -/

/-- A field as it stands in a struct. -/
structure Field where
  type : TType
  id : ℤ
  head : List UInt8
  payload : List UInt8
  deriving DecidableEq, Repr

/-- The head of the field tells its type and number. -/
structure Field.Found {E : Type} (P : Protocol E) (f : Field) : Prop where
  type_ne : f.type ≠ .stop
  head : Reads P.readFieldBegin f.head (f.type, f.id)
  head_ne : f.head ≠ []

/-- The payload is a value of its type: it can be skipped, and a number or a string
can be read. -/
structure Field.Spelled {E : Type} (P : Protocol E) (f : Field) : Prop where
  skip : Reads (P.skip f.type) f.payload ()
  i64 : f.type = .i64 → ∃ v, Reads P.readI64 f.payload v
  string : f.type = .string → ∃ str, Reads P.readBinary f.payload str

/-- The payload of the last field with this type and number. -/
def lastField (fs : List Field) (t : TType) (id : ℤ) : Option (List UInt8) :=
  (fs.reverse.find? fun f => f.id = id && f.type = t).map (·.payload)

theorem lastField_concat (fs : List Field) (f : Field) (t : TType) (id : ℤ) :
    lastField (fs ++ [f]) t id =
      if f.id = id ∧ f.type = t then some f.payload else lastField fs t id := by
  unfold lastField
  rw [List.reverse_append, List.reverse_singleton, List.singleton_append, List.find?_cons]
  by_cases h : f.id = id ∧ f.type = t
  · rw [if_pos h, decide_eq_true h.1, decide_eq_true h.2]
    rfl
  · rw [if_neg h, ← Bool.decide_and, decide_eq_false h]

namespace Protocol

variable {E α : Type} (P : Protocol E)

/-- A field that is written. -/
def field (name : String) (t : TType) (id : ℤ) (payload : List UInt8) : Field :=
  ⟨t, id, P.writeFieldBegin name t id, payload⟩

/-- The fields of a struct, and the stop behind them. -/
def writeFields (fs : List Field) : List UInt8 :=
  fs.flatMap (fun f => f.head ++ (f.payload ++ P.writeFieldEnd)) ++ P.writeFieldStop

/-- A generated `write`. -/
def writeStruct (name : String) (fs : List Field) : List UInt8 :=
  P.writeStructBegin name ++ (P.writeFields fs ++ P.writeStructEnd)

variable {P}

theorem Lawful.found (hP : P.Lawful) (name : String) {t : TType} {id : ℤ} (payload : List UInt8)
    (ht : t.Written) (hid : IsInt 2 id) : (P.field name t id payload).Found P where
  type_ne h := by
    have h : t = .stop := h
    subst h
    exact absurd ht (by decide)
  head := hP.fieldBegin ht hid
  head_ne := hP.fieldBegin_ne name t id

theorem writeFields_cons (f : Field) (fs : List Field) :
    P.writeFields (f :: fs) = f.head ++ (f.payload ++ (P.writeFieldEnd ++ P.writeFields fs)) := by
  unfold writeFields
  simp only [List.flatMap_cons, List.append_assoc]

theorem length_le_writeFields {fs : List Field} (hfs : ∀ f ∈ fs, f.Found P) :
    fs.length ≤ (P.writeFields fs).length := by
  induction fs with
  | nil => exact Nat.zero_le _
  | cons f fs ih =>
    have hhead := List.length_pos_of_ne_nil (hfs f List.mem_cons_self).head_ne
    have htail := ih fun g hg => hfs g (List.mem_cons_of_mem f hg)
    rw [writeFields_cons, List.length_append, List.length_append, List.length_append,
      List.length_cons]
    omega

variable (P)

section ReadStruct

variable (set : α → TType → ℤ → Option (Reader E α))

/-- The loop of a generated `read`: `set` is the `switch`, which reads the fields it
knows, of the type it knows them by, and the others are skipped. -/
def readFields : ℕ → α → Reader E α
  | 0, _ => fail .unending
  | n + 1, a => do
    let f ← P.readFieldBegin
    if f.1 = .stop then pure a
    else do
      let a ← (set a f.1 f.2).getD do
        P.skip f.1
        pure a
      P.readFieldEnd
      readFields n a

/-- A generated `read`.  A round of its loop reads at least a byte, so as many
rounds as there are bytes are enough. -/
def readStruct (a : α) : Reader E α := do
  P.readStructBegin
  let a ← show Reader E α from fun s => P.readFields set (s.length + 1) a s
  P.readStructEnd
  pure a

/-- What a field does to a value; nothing, if it is not known. -/
def applyField (a : α) (f : Field) : α :=
  (set a f.type f.id).elim a fun m => m.valueOf a f.payload

variable {P} {set} {fs : List Field}

theorem applyField_of_reads {f : Field} {m : Reader E α} {a b : α}
    (hm : set a f.type f.id = some m) (h : Reads m f.payload b) : applyField set a f = b := by
  unfold applyField
  rw [hm]
  exact h.valueOf a

theorem readFields_reads (hP : P.Lawful) (hfs : ∀ f ∈ fs, f.Found P)
    (hset : ∀ f ∈ fs, ∀ a m, set a f.type f.id = some m → ∃ b, Reads m f.payload b)
    (hskip : ∀ f ∈ fs, ∀ a, set a f.type f.id = none → Reads (P.skip f.type) f.payload ())
    (a : α) (n : ℕ) (hn : fs.length < n) :
    Reads (P.readFields set n a) (P.writeFields fs) (fs.foldl (applyField set) a) := by
  induction fs generalizing a n with
  | nil =>
    obtain ⟨n, rfl⟩ : ∃ m, n = m + 1 := ⟨n - 1, by omega⟩
    obtain ⟨id, hstop⟩ := hP.fieldStop
    exact hstop.bind_nil (.pure a)
  | cons f fs ih =>
    obtain ⟨n, rfl⟩ : ∃ m, n = m + 1 := ⟨n - 1, by omega⟩
    have hf := hfs f List.mem_cons_self
    have hrest := ih (fun g hg => hfs g (List.mem_cons_of_mem f hg))
      (fun g hg => hset g (List.mem_cons_of_mem f hg))
      (fun g hg => hskip g (List.mem_cons_of_mem f hg)) (applyField set a f) n
      (by rw [List.length_cons] at hn; omega)
    rw [writeFields_cons]
    refine hf.head.bind ?_
    rw [if_neg hf.type_ne]
    refine Reads.bind ?_ (hP.fieldEnd.bind hrest)
    show Reads ((set a f.type f.id).getD (P.skip f.type >>= fun _ => Pure.pure a)) f.payload _
    unfold applyField
    cases hm : set a f.type f.id with
    | some m =>
      obtain ⟨b, hb⟩ := hset f List.mem_cons_self a m hm
      rw [Option.elim_some, hb.valueOf a]
      exact hb
    | none => exact (hskip f List.mem_cons_self a hm).bind_nil (.pure a)

/-- **Reading a struct** applies its fields in their order, each as `set` reads it;
the fields that `set` does not know change nothing. -/
theorem readStruct_reads (hP : P.Lawful) (hfs : ∀ f ∈ fs, f.Found P)
    (hset : ∀ f ∈ fs, ∀ a m, set a f.type f.id = some m → ∃ b, Reads m f.payload b)
    (hskip : ∀ f ∈ fs, ∀ a, set a f.type f.id = none → Reads (P.skip f.type) f.payload ())
    (name : String) (a : α) :
    Reads (P.readStruct set a) (P.writeStruct name fs) (fs.foldl (applyField set) a) := by
  refine (hP.structBegin name).bind (Reads.bind ?_ (hP.structEnd.bind_nil (.pure _)))
  intro rest
  refine readFields_reads hP hfs hset hskip a _ ?_ rest
  have hlen := length_le_writeFields hfs
  rw [List.length_append]
  omega

/-- A struct of which every field is known. -/
theorem readStruct_written (hP : P.Lawful)
    (hfs : ∀ f ∈ fs, f.Found P ∧ ∀ a, ∃ m b, set a f.type f.id = some m ∧ Reads m f.payload b)
    (name : String) (a : α) :
    Reads (P.readStruct set a) (P.writeStruct name fs) (fs.foldl (applyField set) a) := by
  refine readStruct_reads hP (fun f hf => (hfs f hf).1) ?_ ?_ name a
  · intro f hf a m hm
    obtain ⟨m', b, hm', hb⟩ := (hfs f hf).2 a
    obtain rfl := Option.some.inj (hm.symm.trans hm')
    exact ⟨b, hb⟩
  · intro f hf a hnone
    obtain ⟨m, b, hm, -⟩ := (hfs f hf).2 a
    rw [hnone] at hm
    cases hm

theorem readStruct_singleton (hP : P.Lawful) {f : Field} (hf : f.Found P) {g : α → α}
    (hg : ∀ a, ∃ m, set a f.type f.id = some m ∧ Reads m f.payload (g a)) (name : String) (a : α) :
    Reads (P.readStruct set a) (P.writeStruct name [f]) (g a) := by
  obtain ⟨m, hm, hread⟩ := hg a
  rw [← applyField_of_reads hm hread]
  refine readStruct_written hP (List.forall_mem_singleton.mpr ⟨hf, fun a => ?_⟩) name a
  obtain ⟨m, hm, hread⟩ := hg a
  exact ⟨m, _, hm, hread⟩

end ReadStruct

end Protocol

end Xkim.Thrift
