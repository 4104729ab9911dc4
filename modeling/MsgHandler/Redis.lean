/-
MsgHandler/Redis.lean

The connection to redis (`framework/lib/redis_operator.cpp`).

`RedisOperator` opens its connection when the first command is issued, and
opens a new one when a command finds the connection broken.  Opening takes
three calls of hiredis, connect, set the timeout, and `SELECT` of the
configured db, each of which may fail.  The six operations, one of them in a
loop, contain the sequence "connect, command, free, connect, command" each.

What hiredis answers is not known: `Hiredis` gives the answer to the `n`-th
call, whatever it is.  The calls are kept in a trace, and the result is about
the trace: every data command goes to a connection that was opened, on which
`SELECT` then succeeded, and that was not freed since (`commands_selected`).
-/
import MsgHandler.Run

namespace Xkim

/-! ### hiredis -/

/-- A reply of redis, as far as it is looked into.  The elements of an array
are its strings; an element of another type is `none`. -/
inductive RedisReply
  | error
  | string (str : List UInt8)
  | array (element : List (Option (List UInt8)))
  | other
  deriving DecidableEq, Repr

/-- What is passed to `redisCommand`: one of the fixed formats with its
arguments, or a text that is the format itself. -/
inductive RedisCommand
  | set (key value : List UInt8)
  | get (key : List UInt8)
  | publish (channel msg : List UInt8)
  | text (command : List UInt8)
  deriving DecidableEq, Repr

/-- A call of hiredis, with the connection it is made on. -/
inductive HiredisCall
  | connect (conn : ℕ) (ok : Bool)
  | setTimeout (conn : Option ℕ) (ok : Bool)
  | select (conn : ℕ) (db : ℤ) (ok : Bool)
  | command (conn : Option ℕ) (cmd : RedisCommand)
  | free (conn : ℕ)
  deriving DecidableEq, Repr

/-- The answers of hiredis, by the number of calls made before: whether a
connection is without error, whether the timeout could be set, and the reply
to a command with `err != REDIS_OK` after it.  The last one is what
`_CheckReply` finds where a reply was before it was freed. -/
structure Hiredis where
  connect : ℕ → Bool
  setTimeout : ℕ → Bool
  command : ℕ → Option RedisReply × Bool
  freed : ℕ → Bool

/-- `m_redis`, how many connections were opened, and the calls made so far.
Connections are numbered. -/
structure RedisState where
  redis : Option ℕ
  opened : ℕ
  trace : List HiredisCall
  deriving DecidableEq, Repr

namespace RedisState

/-- Before the first call. -/
def new : RedisState := ⟨none, 0, []⟩

def call (s : RedisState) (c : HiredisCall) : RedisState := { s with trace := s.trace ++ [c] }

@[simp] theorem call_redis (s : RedisState) (c : HiredisCall) : (s.call c).redis = s.redis := rfl

@[simp] theorem call_trace (s : RedisState) (c : HiredisCall) :
    (s.call c).trace = s.trace ++ [c] := rfl

def freeRedisConnection (s : RedisState) : RedisState :=
  match s.redis with
  | none => s
  | some c => { s.call (.free c) with redis := none }

/-- `redisCommand` on `m_redis`. -/
def redisCommand (net : Hiredis) (cmd : RedisCommand) (s : RedisState) :
    (Option RedisReply × Bool) × RedisState :=
  (net.command s.trace.length, s.call (.command s.redis cmd))

end RedisState

/-- `reply == NULL || !_CheckReply(reply)`, the other way around. -/
def checkReply : Option RedisReply → Bool
  | none => false
  | some .error => false
  | some _ => true

/-! ### The operator -/

/-- The settings of a `RedisOperator`. -/
structure RedisOperator where
  host : List UInt8
  port : ℤ
  dbIndex : ℤ
  keysNbrPerMget : ℤ
  channel : List UInt8

/-- What comes of a command that is repeated once: the reply to the first
attempt or to the second, or that there is no connection any more. -/
inductive Issued
  | first (reply : Option RedisReply)
  | again (reply : Option RedisReply)
  | lost
  deriving DecidableEq, Repr

/-- The reply an operation goes on with. -/
def Issued.reply : Issued → Option RedisReply
  | .first reply => reply
  | .again reply => reply
  | .lost => none

namespace RedisOperator

variable (op : RedisOperator) (net : Hiredis)

/-- `redisConnectWithTimeout` never returns NULL. -/
def getRedisConnection (s : RedisState) : Bool × RedisState :=
  if op.host = [] ∨ op.port = 0 then (false, s)
  else
    let ok := net.connect s.trace.length
    (ok, { s.call (.connect s.opened ok) with redis := some s.opened, opened := s.opened + 1 })

def setRedisDB (s : RedisState) : Bool × RedisState :=
  if op.dbIndex = -1 then (false, s)
  else
    match s.redis with
    | none => (false, s)
    | some c =>
      let ok := checkReply (net.command s.trace.length).1
      (ok, s.call (.select c op.dbIndex ok))

def connect (s : RedisState) : Bool × RedisState :=
  let r := op.getRedisConnection net s
  if r.1 then
    let ok := net.setTimeout r.2.trace.length
    let t := r.2.call (.setTimeout r.2.redis ok)
    if ok then
      let d := op.setRedisDB net t
      if d.1 then (true, d.2) else (false, d.2.freeRedisConnection)
    else (false, t.freeRedisConnection)
  else (false, r.2.freeRedisConnection)

/-- `m_redis == NULL && !Connect()`, the other way around: the first lines of
every operation. -/
def ensure (s : RedisState) : Bool × RedisState :=
  match s.redis with
  | some _ => (true, s)
  | none => op.connect net s

/-- The command, and the command once more on a new connection if the first
attempt finds the connection broken. -/
def issue (cmd : RedisCommand) (s : RedisState) : Issued × RedisState :=
  let r := s.redisCommand net cmd
  if r.1.1 = none ∧ r.1.2 = true then
    let d := op.connect net r.2.freeRedisConnection
    if d.1 then
      let a := d.2.redisCommand net cmd
      (.again a.1.1, a.2)
    else (.lost, d.2)
  else (.first r.1.1, r.2)

/-- An operation that issues one command. -/
def request (cmd : RedisCommand) (s : RedisState) : Issued × RedisState :=
  let e := op.ensure net s
  if e.1 then op.issue net cmd e.2 else (.lost, e.2)

def set (key value : List UInt8) (s : RedisState) : Bool × RedisState :=
  let r := op.request net (.set key value) s
  (checkReply r.1.reply, r.2)

/-- The text "MSET" with the pairs behind it. -/
def msetCommand (pairs : List (List UInt8 × List UInt8)) : List UInt8 :=
  pairs.foldl (fun command p => command ++ [32] ++ p.1 ++ [32] ++ p.2) [77, 83, 69, 84]

def mset (pairs : List (List UInt8 × List UInt8)) (s : RedisState) : Bool × RedisState :=
  let r := op.request net (.text (msetCommand pairs)) s
  (checkReply r.1.reply, r.2)

/-- The value, if `Get` returns true. -/
def get (key : List UInt8) (s : RedisState) : Option (List UInt8) × RedisState :=
  let r := op.request net (.get key) s
  match r.1.reply with
  | some (.string str) => (some str, r.2)
  | _ => (none, r.2)

/-- The text "KEYS *".  The strings of the reply go behind those in `keys`. -/
def keys (keys : List (List UInt8)) (s : RedisState) :
    (Bool × List (List UInt8)) × RedisState :=
  let r := op.request net (.text [75, 69, 89, 83, 32, 42]) s
  match r.1.reply with
  | some (.array element) => ((true, keys ++ element.filterMap id), r.2)
  | reply => ((checkReply reply, keys), r.2)

/-- `Pub`; `none` where the channel is not set and the assertion fails.  The
reply to a second attempt is freed before it is looked at. -/
def pub (msg : List UInt8) (s : RedisState) : Option Bool × RedisState :=
  let e := op.ensure net s
  if e.1 then
    if op.channel = [] then (none, e.2)
    else
      let r := op.issue net (.publish op.channel msg) e.2
      match r.1 with
      | .again (some _) => (some (net.freed r.2.trace.length), r.2)
      | issued => (some (checkReply issued.reply), r.2)
  else (some false, e.2)

/-! ### Reading many keys -/

/-- `m_keys_nbr_per_mget` as a `size_t`. -/
def keysPerOp : ℕ :=
  if 0 ≤ op.keysNbrPerMget then op.keysNbrPerMget.toNat else (op.keysNbrPerMget % 2 ^ 64).toNat

/-- `i + m_keys_nbr_per_mget`.  A vector is much shorter than `2 ^ 64`, so that
only a negative number makes the sum wrap around. -/
def nextIndex (i : ℕ) : ℕ :=
  if 0 ≤ op.keysNbrPerMget then i + op.keysPerOp else (i + op.keysPerOp) % 2 ^ 64

/-- `key_size_per_op`, for the keys from `i` on. -/
def keySizePerOp (keySize i : ℕ) : ℕ :=
  if op.nextIndex i ≤ keySize then op.keysPerOp else keySize - i

/-- The text "MGET" with `n` keys from `i` on behind it. -/
def mgetCommand (keys : List (List UInt8)) (i n : ℕ) : List UInt8 :=
  ((keys.drop i).take n).foldl (fun command key => command ++ [32] ++ key) [77, 71, 69, 84]

/-- `std::fill` of the places from `first` up to `last` with empty strings;
`none` where this is not a range of the vector. -/
def blank (values : List (List UInt8)) (first last : ℕ) : Option (List (List UInt8)) :=
  if first ≤ last ∧ last ≤ values.length then
    some (values.take first ++ List.replicate (last - first) [] ++ values.drop last)
  else none

/-- The places from `k` on get the strings of the reply. -/
def writeReplies : List (List UInt8) → ℕ → List (Option (List UInt8)) → List (List UInt8)
  | values, _, [] => values
  | values, k, sub :: rest => writeReplies (values.set k (sub.getD [])) (k + 1) rest

/-- What a reply for the `n` keys from `i` on does to the values.  The
`element` of an empty array is NULL. -/
def store (values : List (List UInt8)) (i n : ℕ) :
    Option RedisReply → Option (List (List UInt8))
  | some (.array element) =>
    if element = [] then blank values i n
    else if element.length ≠ n then blank values i n
    else some (writeReplies values i element)
  | _ => blank values i n

/-- The loop of `MGet`; `none` if it has not come to an end, or if it leaves
the vector. -/
def mgetLoop (keys : List (List UInt8)) :
    ℕ → ℕ → List (List UInt8) → RedisState → Option (Bool × List (List UInt8)) × RedisState
  | 0, _, _, s => (none, s)
  | fuel + 1, i, values, s =>
    if i < keys.length then
      let n := op.keySizePerOp keys.length i
      match op.issue net (.text (mgetCommand keys i n)) s with
      | (.lost, t) => (some (false, values), t)
      | (issued, t) =>
        match store values i n issued.reply with
        | none => (none, t)
        | some values' => mgetLoop keys fuel (op.nextIndex i) values' t
    else (some (true, values), s)

/-- `values.resize(n)`. -/
def resize (values : List (List UInt8)) (n : ℕ) : List (List UInt8) :=
  values.take n ++ List.replicate (n - values.length) []

def mget (fuel : ℕ) (keys values : List (List UInt8)) (s : RedisState) :
    Option (Bool × List (List UInt8)) × RedisState :=
  let e := op.ensure net s
  if e.1 then op.mgetLoop net keys fuel 0 (resize values keys.length) e.2
  else (some (false, values), e.2)

end RedisOperator

/-! ### Calls -/

/-- A call of one of the six operations.  A call of `MGet` is followed for
`fuel` turns of its loop. -/
inductive RedisCall
  | set (key value : List UInt8)
  | mset (pairs : List (List UInt8 × List UInt8))
  | get (key : List UInt8)
  | mget (fuel : ℕ) (keys values : List (List UInt8))
  | pub (msg : List UInt8)
  | keys (keys : List (List UInt8))

/-- The state of the connection, and whether the last call has returned. -/
structure RedisRun where
  state : RedisState
  returned : Bool
  deriving DecidableEq, Repr

namespace RedisOperator

variable (op : RedisOperator) (net : Hiredis)

/-- One call, if the last one has returned. -/
def step (s : RedisRun) (c : RedisCall) : Option RedisRun :=
  if s.returned then
    some <| match c with
    | .set key value => ⟨(op.set net key value s.state).2, true⟩
    | .mset pairs => ⟨(op.mset net pairs s.state).2, true⟩
    | .get key => ⟨(op.get net key s.state).2, true⟩
    | .mget fuel keys values =>
      let r := op.mget net fuel keys values s.state
      ⟨r.2, r.1.isSome⟩
    | .pub msg =>
      let r := op.pub net msg s.state
      ⟨r.2, r.1.isSome⟩
    | .keys keys => ⟨(op.keys net keys s.state).2, true⟩
  else none

end RedisOperator

/-! ### Connections in order -/

/-- The connection `c` was opened, then `SELECT` of `db` succeeded on it, and
it has not been freed since it was opened. -/
def Selected (db : ℤ) (trace : List HiredisCall) (c : ℕ) : Prop :=
  ∃ l₁ l₂ l₃, trace = l₁ ++ .connect c true :: l₂ ++ .select c db true :: l₃ ∧
    .free c ∉ l₂ ∧ .free c ∉ l₃

/-- Every data command of the trace was issued on a connection that was
selected at that time. -/
def CommandsSelected (db : ℤ) (trace : List HiredisCall) : Prop :=
  ∀ l₁ l₂ conn cmd, trace = l₁ ++ .command conn cmd :: l₂ →
    ∃ c, conn = some c ∧ Selected db l₁ c

/-- The commands were in order, and `m_redis` is NULL or a selected
connection. -/
structure RedisState.Ordered (db : ℤ) (s : RedisState) : Prop where
  commands : CommandsSelected db s.trace
  selected : ∀ c, s.redis = some c → Selected db s.trace c

variable {db : ℤ} {trace : List HiredisCall} {c : ℕ} {a : HiredisCall} {s : RedisState}

/-- A selected connection stays so until it is freed. -/
theorem Selected.snoc (h : Selected db trace c) (ha : a ≠ .free c) :
    Selected db (trace ++ [a]) c := by
  obtain ⟨l₁, l₂, l₃, rfl, h₂, h₃⟩ := h
  refine ⟨l₁, l₂, l₃ ++ [a], by simp, h₂, ?_⟩
  intro hmem
  rcases List.mem_append.mp hmem with hmem | hmem
  · exact h₃ hmem
  · exact ha (List.mem_singleton.mp hmem).symm

/-- A trace stays in order when a call is added that is no command, or a
command on a selected connection. -/
theorem CommandsSelected.snoc (h : CommandsSelected db trace)
    (ha : ∀ conn cmd, a = .command conn cmd → ∃ c, conn = some c ∧ Selected db trace c) :
    CommandsSelected db (trace ++ [a]) := by
  intro l₁ l₂ conn cmd heq
  rcases List.eq_nil_or_concat l₂ with rfl | ⟨l₂, b, rfl⟩
  · obtain ⟨rfl, hlast⟩ := List.append_inj' heq rfl
    exact ha conn cmd (List.singleton_inj.mp hlast)
  · rw [List.concat_eq_append, ← List.cons_append, ← List.append_assoc] at heq
    exact h l₁ l₂ conn cmd (List.append_inj' heq rfl).1

/-- A call that is no command. -/
theorem CommandsSelected.other (h : CommandsSelected db trace)
    (ha : ∀ conn cmd, a ≠ .command conn cmd) : CommandsSelected db (trace ++ [a]) :=
  h.snoc fun conn cmd heq => absurd heq (ha conn cmd)

theorem CommandsSelected.nil : CommandsSelected db [] := by
  intro l₁ l₂ conn cmd heq
  simp at heq

/-- No connection is left, and the commands remain in order. -/
theorem RedisState.freeRedisConnection_ordered (h : CommandsSelected db s.trace) :
    s.freeRedisConnection.Ordered db := by
  unfold freeRedisConnection
  rcases hredis : s.redis with - | c
  · refine ⟨h, ?_⟩
    intro c hc
    exact absurd (hredis.symm.trans hc) (by simp)
  · refine ⟨h.other (by simp), ?_⟩
    intro c hc
    exact absurd hc (by simp)

/-- A command on a selected connection. -/
theorem RedisState.Ordered.command (h : s.Ordered db) (hredis : s.redis.isSome) (net : Hiredis)
    (cmd : RedisCommand) :
    (s.redisCommand net cmd).2.Ordered db ∧ (s.redisCommand net cmd).2.redis.isSome := by
  obtain ⟨c, hc⟩ := Option.isSome_iff_exists.mp hredis
  refine ⟨⟨h.commands.snoc ?_, ?_⟩, hredis⟩
  · intro conn cmd' heq
    cases heq
    exact ⟨c, hc, h.selected c hc⟩
  · intro c' hc'
    exact (h.selected c' hc').snoc (by simp)

namespace RedisOperator

variable (op : RedisOperator) (net : Hiredis)

/-- Opening a connection adds one call at most, and none that is a command. -/
theorem getRedisConnection_spec (h : CommandsSelected op.dbIndex s.trace) :
    CommandsSelected op.dbIndex (op.getRedisConnection net s).2.trace ∧
      ((op.getRedisConnection net s).1 = true → ∃ c,
        (op.getRedisConnection net s).2.redis = some c ∧
          (op.getRedisConnection net s).2.trace = s.trace ++ [.connect c true]) := by
  unfold getRedisConnection
  split_ifs with hset
  · exact ⟨h, fun hok => absurd hok (by simp)⟩
  · refine ⟨h.other (by simp), ?_⟩
    intro hok
    refine ⟨s.opened, rfl, ?_⟩
    have htrue : net.connect s.trace.length = true := hok
    show s.trace ++ [.connect s.opened (net.connect s.trace.length)] = _
    rw [htrue]

/-- `SELECT` is no data command; it is sent to the connection there is. -/
theorem setRedisDB_spec (h : CommandsSelected op.dbIndex s.trace) :
    CommandsSelected op.dbIndex (op.setRedisDB net s).2.trace ∧
      ((op.setRedisDB net s).1 = true → ∃ c, s.redis = some c ∧
        (op.setRedisDB net s).2 = s.call (.select c op.dbIndex true)) := by
  unfold setRedisDB
  split_ifs with hindex
  · exact ⟨h, fun hok => absurd hok (by simp)⟩
  · rcases hredis : s.redis with - | c
    · exact ⟨h, fun hok => absurd hok (by simp)⟩
    · refine ⟨h.other (by simp), ?_⟩
      intro hok
      refine ⟨c, rfl, ?_⟩
      have htrue : checkReply (net.command s.trace.length).1 = true := hok
      show s.call (.select c op.dbIndex (checkReply (net.command s.trace.length).1)) = _
      rw [htrue]

/-- A connection can be used once `SELECT` has succeeded on it; on every
failure it is freed. -/
theorem connect_ordered (h : CommandsSelected op.dbIndex s.trace) :
    (op.connect net s).2.Ordered op.dbIndex ∧
      ((op.connect net s).1 = true → (op.connect net s).2.redis.isSome) := by
  obtain ⟨hget, hopen⟩ := op.getRedisConnection_spec net h
  unfold connect
  generalize hr : op.getRedisConnection net s = r at hget hopen
  obtain ⟨ok, t⟩ := r
  dsimp only at hget hopen ⊢
  generalize htimeout : net.setTimeout t.trace.length = timeout
  have htime : CommandsSelected op.dbIndex (t.call (.setTimeout t.redis timeout)).trace :=
    hget.other (by simp)
  obtain ⟨hset, hselect⟩ := op.setRedisDB_spec net htime
  split_ifs with hconn hto hdb
  · obtain ⟨c, hc, htrace⟩ := hopen hconn
    obtain ⟨c', hc', heq⟩ := hselect hdb
    obtain rfl : c = c' := Option.some.inj (hc.symm.trans hc')
    refine ⟨⟨hset, ?_⟩, fun _ => ?_⟩
    · intro c' hc'
      rw [heq] at hc' ⊢
      obtain rfl : c = c' := Option.some.inj (hc.symm.trans hc')
      refine ⟨s.trace, [.setTimeout t.redis timeout], [], ?_, by simp, by simp⟩
      show t.trace ++ [_] ++ [_] = _
      rw [htrace]
      simp
    · rw [heq]
      exact Option.isSome_iff_exists.mpr ⟨c, hc⟩
  · exact ⟨RedisState.freeRedisConnection_ordered hset, fun hok => absurd hok (by simp)⟩
  · exact ⟨RedisState.freeRedisConnection_ordered htime, fun hok => absurd hok (by simp)⟩
  · exact ⟨RedisState.freeRedisConnection_ordered hget, fun hok => absurd hok (by simp)⟩

theorem ensure_ordered (h : s.Ordered op.dbIndex) :
    (op.ensure net s).2.Ordered op.dbIndex ∧
      ((op.ensure net s).1 = true → (op.ensure net s).2.redis.isSome) := by
  unfold ensure
  rcases hredis : s.redis with - | c
  · exact op.connect_ordered net h.commands
  · exact ⟨h, fun _ => Option.isSome_iff_exists.mpr ⟨c, hredis⟩⟩

/-- A command leaves the connection in order, the retry included; there is
still one unless it was lost. -/
theorem issue_ordered (cmd : RedisCommand) (h : s.Ordered op.dbIndex) (hredis : s.redis.isSome) :
    (op.issue net cmd s).2.Ordered op.dbIndex ∧
      ((op.issue net cmd s).1 ≠ .lost → (op.issue net cmd s).2.redis.isSome) := by
  obtain ⟨hfirst, hsome⟩ := h.command hredis net cmd
  have hfree := RedisState.freeRedisConnection_ordered hfirst.commands
  obtain ⟨hconn, hopen⟩ := op.connect_ordered net hfree.commands
  unfold issue
  dsimp only
  split_ifs with hbroken hok
  · obtain ⟨hagain, hsome'⟩ := hconn.command (hopen hok) net cmd
    exact ⟨hagain, fun _ => hsome'⟩
  · exact ⟨hconn, fun hne => absurd rfl hne⟩
  · exact ⟨hfirst, fun _ => hsome⟩

theorem request_ordered (cmd : RedisCommand) (h : s.Ordered op.dbIndex) :
    (op.request net cmd s).2.Ordered op.dbIndex := by
  obtain ⟨hens, hsome⟩ := op.ensure_ordered net h
  unfold request
  dsimp only
  split_ifs with hok
  · exact (op.issue_ordered net cmd hens (hsome hok)).1
  · exact hens

theorem get_ordered (key : List UInt8) (h : s.Ordered op.dbIndex) :
    (op.get net key s).2.Ordered op.dbIndex := by
  have hreq := op.request_ordered net (.get key) h
  unfold get
  dsimp only
  split <;> exact hreq

theorem keys_ordered (keys : List (List UInt8)) (h : s.Ordered op.dbIndex) :
    (op.keys net keys s).2.Ordered op.dbIndex := by
  have hreq := op.request_ordered net (.text [75, 69, 89, 83, 32, 42]) h
  unfold RedisOperator.keys
  dsimp only
  split <;> exact hreq

theorem pub_ordered (msg : List UInt8) (h : s.Ordered op.dbIndex) :
    (op.pub net msg s).2.Ordered op.dbIndex := by
  obtain ⟨hens, hsome⟩ := op.ensure_ordered net h
  unfold pub
  dsimp only
  split_ifs with hok hchannel
  · exact hens
  · have hissue := (op.issue_ordered net (.publish op.channel msg) hens (hsome hok)).1
    split <;> exact hissue
  · exact hens

/-- The loop starts every turn with a connection in order. -/
theorem mgetLoop_ordered (keys : List (List UInt8)) (fuel i : ℕ) (values : List (List UInt8))
    (h : s.Ordered op.dbIndex) (hredis : s.redis.isSome) :
    (op.mgetLoop net keys fuel i values s).2.Ordered op.dbIndex := by
  induction fuel generalizing i values s with
  | zero => exact h
  | succ fuel ih =>
    rw [mgetLoop]
    split_ifs with hlt
    · obtain ⟨hissue, hsome⟩ := op.issue_ordered net
        (.text (mgetCommand keys i (op.keySizePerOp keys.length i))) h hredis
      dsimp only
      split
      · rename_i t heq
        rw [heq] at hissue
        exact hissue
      · rename_i issued t hne heq
        rw [heq] at hissue hsome
        split
        · exact hissue
        · exact ih _ _ hissue (hsome hne)
    · exact h

theorem mget_ordered (fuel : ℕ) (keys values : List (List UInt8)) (h : s.Ordered op.dbIndex) :
    (op.mget net fuel keys values s).2.Ordered op.dbIndex := by
  obtain ⟨hens, hsome⟩ := op.ensure_ordered net h
  unfold mget
  dsimp only
  split_ifs with hok
  · exact op.mgetLoop_ordered net keys fuel 0 _ hens (hsome hok)
  · exact hens

/-- Every operation leaves the connection in order. -/
theorem step_ordered {r r' : RedisRun} {call : RedisCall} (h : r.state.Ordered op.dbIndex)
    (hstep : op.step net r call = some r') : r'.state.Ordered op.dbIndex := by
  unfold step at hstep
  split_ifs at hstep with hreturned
  obtain rfl := Option.some.inj hstep
  cases call with
  | set key value => exact op.request_ordered net _ h
  | mset pairs => exact op.request_ordered net _ h
  | get key => exact op.get_ordered net key h
  | mget fuel keys values => exact op.mget_ordered net fuel keys values h
  | pub msg => exact op.pub_ordered net msg h
  | keys keys => exact op.keys_ordered net keys h

/-- **No command on an unselected connection.**  Whatever operations are
called and whatever hiredis answers, every data command is issued on a
connection that was opened and on which `SELECT` of the configured db then
succeeded, and between the calls `m_redis` is NULL or such a connection. -/
theorem commands_selected (calls : List RedisCall) :
    Always (op.step net) (fun r : RedisRun => r.state.Ordered op.dbIndex) ⟨.new, true⟩ calls := by
  refine Always.of_guarded (I := fun r : RedisRun => r.state.Ordered op.dbIndex)
    (G := fun _ _ => True) ?_ (fun _ hr => hr) ?_ (guarded_true _ _)
  · rintro r call r' hr - hstep
    exact op.step_ordered net hr hstep
  · refine ⟨CommandsSelected.nil, ?_⟩
    intro c hc
    exact absurd hc (by simp [RedisState.new])

end RedisOperator

end Xkim
