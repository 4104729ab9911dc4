/-
MsgHandler/Reassembly.lean

Frame reassembly does not depend on how the stream is cut.

The stream is a list of frames followed by an incomplete one.  Whatever the
kernel answers to the `recv` calls of any number of read events, short of an
end of file or an error, the frames handed to `whenReceivedFrame` are the
frames of the stream, in order.

The argument is one invariant, `Reading`.  Between two read events the bytes
in the buffer followed by the bytes still in the kernel are exactly the
frames not handed over yet followed by the incomplete rest, and the buffer
holds no complete frame.  A `recv` moves bytes from the kernel to the buffer
and keeps the first half; `deliver` restores the second half, by
`Framing.peel`, one frame at a time.
-/
import MsgHandler.Connection

namespace Xkim

variable {P σ : Type}

/-! ### Streams and traces -/

/-- A stream of frames of at most `FRAME_MAX_SIZE` bytes, followed by an
incomplete frame (a frame cut before its end, possibly before its start). -/
structure WellFramed (fs : List (List UInt8)) (r : List UInt8) : Prop where
  isFrame : ∀ f ∈ fs, wire.IsFrame f
  small : ∀ f ∈ fs, f.length ≤ FRAME_MAX_SIZE
  rest : ∃ g, wire.IsFrame g ∧ g.length ≤ FRAME_MAX_SIZE ∧ r <+: g ∧ r.length < g.length

theorem WellFramed.incomplete {fs : List (List UInt8)} {r : List UInt8}
    (h : WellFramed fs r) : wire.Incomplete r := by
  obtain ⟨g, hg, -, hpre, hlt⟩ := h.rest
  exact hg.incomplete_of_prefix hpre hlt

/-- The size announced in sight is at most `FRAME_MAX_SIZE`. -/
theorem WellFramed.size_le {fs : List (List UInt8)} {r w u : List UInt8}
    (h : WellFramed fs r) (hs : w ++ u = fs.flatten ++ r) (hw : 4 ≤ w.length) :
    ntohl w + 4 ≤ FRAME_MAX_SIZE := by
  rcases Framing.size_of_header (F := wire) h.isFrame hs hw with ⟨f, hf, he⟩ | he
  · have := h.small f hf
    rw [wire_size] at he
    omega
  · obtain ⟨g, hg, hgs, ⟨t, rfl⟩, hlt⟩ := h.rest
    rw [wire_size, wire_size] at he
    by_cases hr : 4 ≤ r.length
    · have hsz := hg.2
      rw [wire_size, ntohl_append r t hr] at hsz
      omega
    · -- a rest without a header: the header in sight belongs to a frame
      rw [he, ntohl_of_short (not_le.mp hr)]
      decide

/-- A frame with its length, as `whenReceivedFrame` is given it. -/
def sized (f : List UInt8) : List UInt8 × ℤ := (f, f.length)

/-- The calls of `whenReceivedFrame` in a trace. -/
def framesOf : List Act → List (List UInt8 × ℤ)
  | [] => []
  | .frame _ size _ bytes :: as => (bytes, size) :: framesOf as
  | _ :: as => framesOf as

/-- A trace entry that is no teardown, and whose `recv` has room in the
buffer, and at least one byte of it in state `SOCKET_RECV_FRAMING`. -/
def Act.Orderly : Act → Prop
  | .recv st rpos rsize len => rpos + len ≤ rsize ∧ (st = .recvFraming → 0 < len)
  | .teardown _ => False
  | _ => True

@[simp] theorem framesOf_append (as bs : List Act) :
    framesOf (as ++ bs) = framesOf as ++ framesOf bs := by
  induction as with
  | nil => rfl
  | cons a as ih => cases a <;> simp [framesOf, ih]

@[simp] theorem framesOf_replicate_recv (k len : ℕ) (c : IoConnection P) :
    framesOf (List.replicate k (recvAct len c)) = [] := by
  induction k with
  | zero => rfl
  | succ k ih => simpa [List.replicate_succ, recvAct, framesOf] using ih

/-! ### The invariant -/

/-- What holds at every point of a read event, for the bytes `w` at hand and
the frames `todo` still to come: the connection is open, nothing went wrong
so far, and `w` followed by the unread bytes continues the stream. -/
structure Open (r : List UInt8) (todo : List (List UInt8)) (w : List UInt8)
    (m : Ctx P σ) : Prop where
  running : m.halted = false
  alive : m.conn.destroy = false
  socket : m.conn.socket ≠ none
  rbuf : m.conn.rbuf.length = FRAME_MAX_SIZE
  rsize : m.conn.rsize = FRAME_MAX_SIZE
  rpos : m.conn.rpos ≤ m.conn.rsize
  orderly : ∀ a ∈ m.trace, a.Orderly
  framed : WellFramed todo r
  stream : w ++ m.unread = todo.flatten ++ r

/-- The stream `fs` is split into the frames handed over and those still to
come after the bytes `w` at hand. -/
def Progress (fs : List (List UInt8)) (r w : List UInt8) (m : Ctx P σ) : Prop :=
  ∃ done todo, fs = done ++ todo ∧ framesOf m.trace = done.map sized ∧ Open r todo w m

/-- The length word has been read into `_frame_size`. -/
def HasHeader (c : IoConnection P) : Prop :=
  4 ≤ c.rpos ∧ c.frameSize = ntohl c.received + 4

/-- Between two read events: nothing complete is left in the buffer. -/
structure Reading (fs : List (List UInt8)) (r : List UInt8) (m : Ctx P σ) : Prop where
  progress : Progress fs r m.conn.received m
  incomplete : wire.Incomplete m.conn.received
  state : m.conn.rsockState = .recvFraming ∨
    m.conn.rsockState = .dataRecv ∧ HasHeader m.conn

variable {fs todo : List (List UInt8)} {r w : List UInt8} {m : Ctx P σ}

theorem Open.length_received (h : Open r todo w m) :
    m.conn.received.length = m.conn.rpos := by
  have h₁ := h.rbuf
  have h₂ := h.rsize
  have h₃ := h.rpos
  rw [IoConnection.received, List.length_take]
  omega

/-- The announced size in sight passes every test of the code. -/
theorem Open.size_le (h : Open r todo w m) (h4 : 4 ≤ w.length) :
    ntohl w + 4 ≤ FRAME_MAX_SIZE :=
  h.framed.size_le h.stream h4

/-- An incomplete buffer has room. -/
theorem Open.rpos_lt (h : Open r todo m.conn.received m)
    (hi : wire.Incomplete m.conn.received) : m.conn.rpos < FRAME_MAX_SIZE := by
  have hlen := h.length_received
  by_cases h4 : 4 ≤ m.conn.rpos
  · have hsize := h.size_le (hlen ▸ h4)
    rcases hi with hi | hi
    · rw [hlen, wire_hdr] at hi
      omega
    · rw [hlen, wire_size] at hi
      omega
  · rw [FRAME_MAX_SIZE]
    omega

/-- A complete frame at hand is the next frame of the stream. -/
theorem Open.peel (h : Open r todo w m) (h4 : 4 ≤ w.length)
    (hfull : ntohl w + 4 ≤ w.length) :
    ∃ todo', todo = w.take (ntohl w + 4) :: todo' ∧
      Open r todo' (w.drop (ntohl w + 4)) m := by
  have hw : ¬ wire.Incomplete w := Framing.not_incomplete_iff.mpr ⟨h4, hfull⟩
  obtain ⟨todo', rfl, hstream⟩ :=
    Framing.peel h.framed.isFrame h.framed.incomplete h.stream hw
  refine ⟨todo', rfl, { h with framed := ?_, stream := hstream }⟩
  exact ⟨fun f hf => h.framed.isFrame f (List.mem_cons_of_mem _ hf),
    fun f hf => h.framed.small f (List.mem_cons_of_mem _ hf), h.framed.rest⟩

/-! ### Windows into the buffer -/

theorem slice_natCast (mem : List UInt8) (b size : ℕ) :
    slice mem b size = (mem.drop b).take size := by
  simp [slice]

/-- The `len` bytes at offset `b` that the pipelined loop has before it. -/
def window (c : IoConnection P) (b len : ℕ) : List UInt8 := (c.rbuf.drop b).take len

theorem window_length {c : IoConnection P} {b len : ℕ} (hb : b + len ≤ c.rbuf.length) :
    (window c b len).length = len := by
  rw [window, List.length_take, List.length_drop]
  omega

theorem window_drop (c : IoConnection P) (b len n : ℕ) :
    (window c b len).drop n = window c (b + n) (len - n) := by
  rw [window, List.drop_take, List.drop_drop, window]

theorem window_take {c : IoConnection P} {b len n : ℕ} (hn : n ≤ len) :
    (window c b len).take n = (c.rbuf.drop b).take n := by
  rw [window, List.take_take, Nat.min_eq_left hn]

/-- The length word the loop reads is the one in its window. -/
theorem wordAt?_window {c : IoConnection P} {b len : ℕ} (h4 : 4 ≤ len)
    (hb : b + len ≤ c.rbuf.length) :
    wordAt? c.rbuf b = some (ntohl (window c b len)) := by
  have hin : (0 : ℤ) ≤ b ∧ (b : ℤ) + 4 ≤ c.rbuf.length := by omega
  rw [wordAt?, if_pos hin, Int.toNat_natCast, window, ntohl_take h4]
  rw [List.length_drop]
  omega

theorem hostInt_window {c : IoConnection P} {b len i : ℕ} (hi : 4 * i + 4 ≤ len)
    (hb : b + len ≤ c.rbuf.length) (u : List UInt8) :
    hostInt (window c b len ++ u) i = hostInt (c.rbuf.drop b) i := by
  have hlen : 4 * i + 4 ≤ (c.rbuf.drop b).length := by
    rw [List.length_drop]
    omega
  rw [hostInt_append u (by rw [window_length hb]; exact hi), window, hostInt_take hi hlen]

/-- What the pipelined loop leaves over goes to the front of the buffer. -/
theorem keepRest_eq {b len : ℕ} (hb : b + len ≤ m.conn.rbuf.length) :
    keepRest b len m = { m with conn := { m.conn with
      rbuf := window m.conn b len ++ m.conn.rbuf.drop len
      rpos := len
      rsockState := .recvFraming } } := by
  have hin : (0 : ℤ) ≤ b ∧ (0 : ℤ) ≤ len ∧ (b : ℤ) + len ≤ m.conn.rbuf.length := by omega
  simp only [keepRest, if_pos hin, slice_natCast, Int.toNat_natCast]
  rfl

theorem received_keepRest {b len : ℕ} (hb : b + len ≤ m.conn.rbuf.length) :
    (keepRest b len m).conn.received = window m.conn b len := by
  have hlen := window_length hb
  rw [keepRest_eq hb]
  show List.take len (window m.conn b len ++ _) = _
  rw [List.take_append_of_le_length (le_of_eq hlen.symm)]
  exact List.take_of_length_le (le_of_eq hlen)

theorem length_keepRest {b len : ℕ} (hb : b + len ≤ m.conn.rbuf.length) :
    (keepRest b len m).conn.rbuf.length = m.conn.rbuf.length := by
  rw [keepRest_eq hb]
  show (window m.conn b len ++ m.conn.rbuf.drop len).length = _
  rw [List.length_append, window_length hb, List.length_drop]
  omega

/-! ### Handing over frames -/

section Accepting

variable {h : IoHooks P σ}
  (hacc : ∀ mem b size s, ∃ s', h.whenReceivedFrame mem b size s = some (0, s'))

/-- After an accepted call of `whenReceivedFrame(b, size)`. -/
structure Called (b size : ℕ) (m m' : Ctx P σ) : Prop where
  conn : m'.conn = m.conn
  unread : m'.unread = m.unread
  halted : m'.halted = m.halted
  trace : m'.trace = m.trace ++ [.frame b size m.conn.rpos (slice m.conn.rbuf b size)]

include hacc in
/-- A hook that always returns zero: the call only leaves its trace. -/
theorem callFrame_accept (b size : ℕ) (m : Ctx P σ) :
    ∃ m', callFrame h b size m = (some 0, m') ∧ Called b size m m' := by
  obtain ⟨s', hs'⟩ := hacc m.conn.rbuf b size m.app
  refine ⟨{ m.log (.frame b size m.conn.rpos (slice m.conn.rbuf b size)) with app := s' },
    ?_, ⟨rfl, rfl, rfl, rfl⟩⟩
  simp [callFrame, Ctx.log, hs']

/-- Handing over the first frame of the window. -/
theorem Progress.hand_over {b len size : ℕ} {m' : Ctx P σ}
    (hp : Progress fs r (window m.conn b len) m) (hb : b + len ≤ m.conn.rbuf.length)
    (h4 : 4 ≤ len) (hsize : size = ntohl (window m.conn b len) + 4) (hfull : size ≤ len)
    (hm' : Called b size m m') :
    Progress fs r (window m'.conn (b + size) (len - size)) m' := by
  obtain ⟨done, todo, rfl, htrace, hopen⟩ := hp
  have hlen := window_length hb
  obtain ⟨todo', rfl, hopen'⟩ := hopen.peel (by omega) (by omega)
  rw [← hsize, window_drop] at hopen'
  rw [hm'.conn]
  refine ⟨done ++ [slice m.conn.rbuf b size], todo', ?_, ?_, ?_⟩
  · rw [slice_natCast, ← window_take hfull, hsize]
    simp
  · have hslice : ((slice m.conn.rbuf b size).length : ℤ) = size := by
      rw [slice_natCast, ← window_take hfull, List.length_take, hlen]
      omega
    simp [hm'.trace, htrace, framesOf, sized, hslice]
  · obtain ⟨hc, hu, hh, ht⟩ := hm'
    refine ⟨hh ▸ hopen.running, ?_, ?_, ?_, ?_, ?_, ?_, hopen'.framed, hu ▸ hopen'.stream⟩
    · rw [hc]; exact hopen.alive
    · rw [hc]; exact hopen.socket
    · rw [hc]; exact hopen.rbuf
    · rw [hc]; exact hopen.rsize
    · rw [hc]; exact hopen.rpos
    · intro a ha
      rw [ht] at ha
      rcases List.mem_append.mp ha with ha | ha
      · exact hopen.orderly a ha
      · rw [List.mem_singleton.mp ha]
        trivial

/-- The rest of a window without a complete frame is kept for later. -/
theorem Progress.keepRest {b len : ℕ}
    (hp : Progress fs r (window m.conn b len) m) (hb : b + len ≤ m.conn.rbuf.length)
    (hi : wire.Incomplete (window m.conn b len)) :
    Reading fs r (keepRest b len m) := by
  have hrec := received_keepRest hb
  have hbuf := length_keepRest hb
  refine ⟨?_, by rw [hrec]; exact hi, Or.inl (by rw [keepRest_eq hb])⟩
  rw [hrec]
  obtain ⟨done, todo, rfl, htrace, hopen⟩ := hp
  have hr := hopen.rbuf
  have hs := hopen.rsize
  rw [keepRest_eq hb] at hbuf ⊢
  refine ⟨done, todo, rfl, htrace, { hopen with rbuf := hbuf.trans hr, rpos := ?_ }⟩
  show len ≤ m.conn.rsize
  omega

include hacc in
/-- **The pipelined loop** hands over every complete frame of its window.
The fuel needs to be no more than the number of bytes: each round consumes
at least the four of a length word. -/
theorem pipelined_reading (fuel : ℕ) :
    ∀ {b len size : ℕ} {m : Ctx P σ}, Progress fs r (window m.conn b len) m →
      b + len ≤ m.conn.rbuf.length → 4 ≤ len → len ≤ fuel →
      size = ntohl (window m.conn b len) + 4 →
      Reading fs r (pipelined h fuel b len size m) := by
  induction fuel with
  | zero =>
    intro b len size m _ _ h4 hfuel
    omega
  | succ fuel ih =>
    intro b len size m hp hb h4 hfuel hsize
    rw [pipelined]
    by_cases hfull : size ≤ len
    · obtain ⟨m', hcall, hm'⟩ := callFrame_accept hacc b size m
      have hp' := hp.hand_over hb h4 hsize hfull hm'
      have hb' : b + size + (len - size) ≤ m'.conn.rbuf.length := by
        rw [hm'.conn]
        omega
      rw [if_pos (by omega), hcall]
      simp only [show ¬ ((0 : ℤ) = -1) by decide, if_false]
      rw [← Nat.cast_add, ← Nat.cast_sub hfull]
      by_cases hmore : 4 ≤ len - size
      · -- another length word is at hand: it is small, so the loop goes on with it
        rw [if_pos (by omega), wordAt?_window hmore hb']
        obtain ⟨-, todo, -, -, hopen⟩ := id hp'
        have hsmall := hopen.size_le (by rw [window_length hb']; exact hmore)
        rw [FRAME_MAX_SIZE] at hsmall
        dsimp only
        rw [toInt32_natCast_add_four (by omega)]
        exact ih hp' hb' hmore (by omega) rfl
      · rw [if_neg (by omega)]
        exact hp'.keepRest hb' (Or.inl (by rw [window_length hb', wire_hdr]; omega))
    · -- the frame is not complete: its beginning waits at the front of the buffer
      rw [if_neg (by omega)]
      exact hp.keepRest hb (Or.inr (by rw [window_length hb, wire_size]; omega))

include hacc in
/-- `deliver` on a buffer that holds a length word and perhaps more. -/
theorem deliver_reading {fuel : ℕ} (hfuel : FRAME_MAX_SIZE ≤ fuel)
    (hp : Progress fs r m.conn.received m) (hst : m.conn.rsockState = .dataRecv)
    (hh : HasHeader m.conn) : Reading fs r (deliver h fuel m) := by
  obtain ⟨h4, hsize⟩ := hh
  obtain ⟨-, todo, -, -, hopen⟩ := id hp
  have hlen := hopen.length_received
  have hrbuf := hopen.rbuf
  have hrsize := hopen.rsize
  have hrpos := hopen.rpos
  have hsmall := hopen.size_le (by omega)
  have hcast := toInt32_size (hsize ▸ hsmall)
  rw [FRAME_MAX_SIZE] at *
  have hb : 0 + m.conn.rpos ≤ m.conn.rbuf.length := by omega
  rw [deliver, hcast]
  by_cases heq : m.conn.rpos = m.conn.frameSize
  · -- exactly one frame
    obtain ⟨m', hcall, hm'⟩ := callFrame_accept hacc 0 m.conn.frameSize m
    have hp' := hp.hand_over (b := 0) hb h4 hsize (by omega) hm'
    rw [if_pos (by omega), show (0 : ℤ) = ((0 : ℕ) : ℤ) from rfl, hcall]
    show Reading fs r
      { m' with conn := { m'.conn with rpos := 0, rsockState := .recvFraming } }
    have hnil : window m'.conn (0 + m.conn.frameSize) (m.conn.rpos - m.conn.frameSize) = [] := by
      rw [heq, Nat.sub_self]
      exact List.take_zero
    rw [hnil] at hp'
    obtain ⟨done, todo', hfs, htrace, hopen'⟩ := hp'
    refine ⟨⟨done, todo', hfs, htrace, ?_⟩, Or.inl ?_, Or.inl rfl⟩
    · exact { hopen' with rpos := Nat.zero_le _ }
    · show (List.take 0 m'.conn.rbuf).length < 4
      rw [List.take_zero]
      decide
  · rw [if_neg (by omega)]
    by_cases hgt : m.conn.frameSize < m.conn.rpos
    · -- the fuel covers the buffer
      rw [if_pos (by omega), show (0 : ℤ) = ((0 : ℕ) : ℤ) from rfl]
      exact pipelined_reading hacc fuel hp hb h4 (by omega) hsize
    · rw [if_neg (by omega)]
      exact ⟨hp, Or.inr (by rw [hlen, wire_size]; omega), Or.inr ⟨hst, h4, hsize⟩⟩

/-- A `recv` that delivers bytes appends them to the buffer. -/
theorem received_store {bytes : List UInt8} (hlen : m.conn.rpos ≤ m.conn.rbuf.length) :
    (store bytes m).conn.received = m.conn.received ++ bytes := by
  have htake : (m.conn.rbuf.take m.conn.rpos).length = m.conn.rpos := by
    rw [List.length_take]
    omega
  show List.take (m.conn.rpos + bytes.length) (_ ++ bytes ++ _) = _
  rw [List.take_append_of_le_length (by rw [List.length_append, htake])]
  exact List.take_of_length_le (by rw [List.length_append, htake])

/-- The length word stays where it is. -/
theorem HasHeader.store {bytes : List UInt8} (hh : HasHeader m.conn)
    (hlen : m.conn.rpos ≤ m.conn.rbuf.length) : HasHeader (store bytes m).conn := by
  obtain ⟨h4, hsize⟩ := hh
  have hword : 4 ≤ m.conn.received.length := by
    rw [IoConnection.received, List.length_take]
    omega
  refine ⟨?_, ?_⟩
  · show 4 ≤ m.conn.rpos + bytes.length
    omega
  · rw [received_store hlen, ntohl_append _ _ hword]
    exact hsize

/-- The stream seen by the connection after a `recv` with room for it. -/
theorem Progress.recv {len : ℕ} {cs : List RecvChoice} {res : RecvResult} {m' : Ctx P σ}
    (hp : Progress fs r m.conn.received m) (hpost : RecvPost len cs m res m')
    (hroom : m.conn.rpos + len ≤ m.conn.rsize)
    (hpos : m.conn.rsockState = .recvFraming → 0 < len) :
    Progress fs r (m'.conn.received ++ res.bytes) m' := by
  obtain ⟨done, todo, hfs, htrace, hopen⟩ := hp
  obtain ⟨hc, -, -, hh, -, ⟨k, hk⟩, hu, -, -, -⟩ := hpost
  rw [hc]
  refine ⟨done, todo, hfs, ?_, hh ▸ hopen.running, ?_, ?_, ?_, ?_, ?_, ?_, hopen.framed, ?_⟩
  · rw [hk, framesOf_append, framesOf_replicate_recv, List.append_nil, htrace]
  · rw [hc]; exact hopen.alive
  · rw [hc]; exact hopen.socket
  · rw [hc]; exact hopen.rbuf
  · rw [hc]; exact hopen.rsize
  · rw [hc]; exact hopen.rpos
  · intro a ha
    rw [hk] at ha
    rcases List.mem_append.mp ha with ha | ha
    · exact hopen.orderly a ha
    · rw [List.eq_of_mem_replicate ha]
      exact ⟨hroom, hpos⟩
  · rw [List.append_assoc, ← hu]
    exact hopen.stream

/-- Storing the bytes of a `recv`. -/
theorem Progress.store {bytes : List UInt8}
    (hp : Progress fs r (m.conn.received ++ bytes) m)
    (hroom : m.conn.rpos + bytes.length ≤ m.conn.rsize) :
    Progress fs r (store bytes m).conn.received (store bytes m) := by
  obtain ⟨done, todo, hfs, htrace, hopen⟩ := hp
  have hrbuf := hopen.rbuf
  have hrsize := hopen.rsize
  rw [received_store (by omega)]
  refine ⟨done, todo, hfs, htrace, { hopen with rbuf := ?_, rpos := hroom }⟩
  rw [store_rbuf_length (by omega), hrbuf]

/-! ### Whole read events -/

/-- A script without end of file and without hard errors. -/
def Benign (cs : List RecvChoice) : Prop := ∀ c ∈ cs, c ≠ .eof ∧ c ≠ .error

theorem mem_of_firstAnswer {cs : List RecvChoice} {c : RecvChoice}
    (h : firstAnswer cs = some c) : c ∈ cs := by
  induction cs with
  | nil => cases h
  | cons d cs ih =>
    cases d with
    | eintr => exact List.mem_cons_of_mem _ (ih h)
    | _ =>
      rw [Option.some.inj h.symm]
      exact List.mem_cons_self

/-- Under a benign script an open socket with room delivers or asks to wait. -/
theorem RecvPost.benign {len : ℕ} {cs : List RecvChoice} {res : RecvResult} {m' : Ctx P σ}
    (hpost : RecvPost len cs m res m') (hcs : Benign cs) (hs : m.conn.socket ≠ none)
    (hlen : 0 < len) : res ≠ .eof ∧ res ≠ .error := by
  constructor
  · intro he
    rcases (hpost.eof he).2 with h0 | h0
    · omega
    · exact (hcs _ (mem_of_firstAnswer h0)).1 rfl
  · intro he
    rcases hpost.error.mp he with h0 | h0
    · exact hs h0
    · exact (hcs _ (mem_of_firstAnswer h0)).2 rfl

include hacc in
theorem dataRecv_reading {fuel : ℕ} (hfuel : FRAME_MAX_SIZE ≤ fuel)
    (hp : Progress fs r m.conn.received m) (hst : m.conn.rsockState = .dataRecv)
    (hh : HasHeader m.conn) (hcs : Benign m.script) : Reading fs r (dataRecv h fuel m) := by
  obtain ⟨h4, hsize⟩ := id hh
  obtain ⟨-, todo, -, -, hopen⟩ := id hp
  have hlen := hopen.length_received
  have hrbuf := hopen.rbuf
  have hrsize := hopen.rsize
  have hrpos := hopen.rpos
  have hsmall := hopen.size_le (by omega)
  have hleft := toInt32_left (hsize ▸ hsmall) (hrpos.trans_eq hrsize)
  rw [FRAME_MAX_SIZE] at hrbuf hrsize hsmall
  rw [dataRecv, hleft]
  by_cases hmore : m.conn.rpos < m.conn.frameSize
  · simp only [show (m.conn.frameSize : ℤ) - m.conn.rpos > 0 by omega, if_true]
    rw [show ((m.conn.frameSize : ℤ) - m.conn.rpos).toNat = m.conn.frameSize - m.conn.rpos by
      omega]
    rcases hrec : recv (m.conn.frameSize - m.conn.rpos) m.script m with ⟨res, m'⟩
    have hpost := recv_post_of_eq hrec
    have hp' := hp.recv hpost (by omega) (by rw [hst]; intro hne; cases hne)
    have hres := hpost.benign hcs hopen.socket (by omega)
    cases res with
    | got bytes =>
      have hgot := (hpost.got bytes rfl).2.2
      rw [RecvResult.bytes_got] at hp'
      have hc := hpost.conn
      refine deliver_reading hacc hfuel (hp'.store (by rw [hc]; omega)) ?_ ?_
      · show m'.conn.rsockState = _
        rw [hc, hst]
      · exact HasHeader.store (hc ▸ hh) (by rw [hc]; omega)
    | eof => exact absurd rfl hres.1
    | error => exact absurd rfl hres.2
    | eagain =>
      rw [RecvResult.bytes_eagain, List.append_nil] at hp'
      have hc := hpost.conn
      refine ⟨hp', ?_, Or.inr ?_⟩
      · rw [hc]
        exact Or.inr (by rw [hlen, wire_size]; omega)
      · rw [hc]
        exact ⟨hst, hh⟩
  · simp only [show ¬ (m.conn.frameSize : ℤ) - m.conn.rpos > 0 by omega, if_false]
    exact deliver_reading hacc hfuel hp hst hh

include hacc in
theorem frameHeader_reading {fuel : ℕ} (hfuel : FRAME_MAX_SIZE ≤ fuel)
    (hp : Progress fs r m.conn.received m) (hst : m.conn.rsockState = .recvFraming)
    (hcs : Benign m.script) : Reading fs r (frameHeader h fuel m) := by
  obtain ⟨done, todo, hfs, htrace, hopen⟩ := id hp
  have hlen := hopen.length_received
  rw [frameHeader]
  by_cases h4 : m.conn.rpos < 4
  · rw [if_pos h4]
    exact ⟨hp, Or.inl (by rw [hlen, wire_hdr]; exact h4), Or.inl hst⟩
  · have hrbuf := hopen.rbuf
    have hrsize := hopen.rsize
    have hrpos := hopen.rpos
    have hsmall := hopen.size_le (by omega)
    have hword : ntohl m.conn.rbuf = ntohl m.conn.received := by
      rw [IoConnection.received, ntohl_take (by omega) (by omega)]
    have hsize : (ntohl m.conn.rbuf + 4) % 2 ^ 32 = ntohl m.conn.received + 4 := by
      rw [hword]
      rw [FRAME_MAX_SIZE] at hsmall
      omega
    rw [if_neg h4]
    simp only [hsize]
    rw [if_neg (by omega), if_neg (not_grow hsmall hrsize)]
    refine dataRecv_reading hacc hfuel ?_ rfl ⟨by show 4 ≤ m.conn.rpos; omega, rfl⟩ hcs
    exact ⟨done, todo, hfs, htrace, { hopen with }⟩

include hacc in
theorem recvFraming_reading {fuel : ℕ} (hfuel : FRAME_MAX_SIZE ≤ fuel)
    (hp : Progress fs r m.conn.received m) (hi : wire.Incomplete m.conn.received)
    (hst : m.conn.rsockState = .recvFraming) (hcs : Benign m.script) :
    Reading fs r (recvFraming h fuel m) := by
  obtain ⟨-, todo, -, -, hopen⟩ := id hp
  have hlt := hopen.rpos_lt hi
  have hrsize := hopen.rsize
  rw [recvFraming]
  rcases hrec : recv (m.conn.rsize - m.conn.rpos) m.script m with ⟨res, m'⟩
  have hpost := recv_post_of_eq hrec
  have hp' := hp.recv hpost (by omega) (fun _ => by omega)
  have hres := hpost.benign hcs hopen.socket (by omega)
  have hcs' : Benign m'.script := fun c hc => hcs c (hpost.script c hc)
  have hc := hpost.conn
  cases res with
  | got bytes =>
    have hgot := (hpost.got bytes rfl).2.2
    rw [RecvResult.bytes_got] at hp'
    refine frameHeader_reading hacc hfuel (hp'.store (by rw [hc]; omega)) ?_ hcs'
    show m'.conn.rsockState = _
    rw [hc, hst]
  | eof => exact absurd rfl hres.1
  | error => exact absurd rfl hres.2
  | eagain =>
    rw [RecvResult.bytes_eagain, List.append_nil] at hp'
    exact frameHeader_reading hacc hfuel hp' (by rw [hc, hst]) hcs'

include hacc in
/-- **One read event** keeps the invariant. -/
theorem readHandler_reading {fuel : ℕ} (hfuel : FRAME_MAX_SIZE ≤ fuel)
    (hm : Reading fs r m) {script : List RecvChoice} (hcs : Benign script) :
    Reading fs r (readHandler h fuel script m) := by
  obtain ⟨⟨done, todo, hfs, htrace, hopen⟩, hi, hst⟩ := hm
  have hp : Progress fs r m.conn.received { m with script := script } :=
    ⟨done, todo, hfs, htrace, { hopen with }⟩
  rw [readHandler, if_neg (by simp [hopen.running, hopen.alive]), readSocket]
  rcases hst with hst | ⟨hst, hh⟩
  · simp only [hst]
    exact recvFraming_reading hacc hfuel hp hi hst hcs
  · simp only [hst]
    exact dataRecv_reading hacc hfuel hp hst hh hcs

include hacc in
/-- Any number of read events keeps the invariant. -/
theorem readEvents_reading {fuel : ℕ} (hfuel : FRAME_MAX_SIZE ≤ fuel)
    (scripts : List (List RecvChoice)) (hcs : ∀ cs ∈ scripts, Benign cs)
    {m : Ctx P σ} (hm : Reading fs r m) : Reading fs r (readEvents h fuel scripts m) := by
  induction scripts generalizing m with
  | nil => exact hm
  | cons cs scripts ih =>
    refine ih (fun cs' hcs' => hcs cs' (List.mem_cons_of_mem _ hcs')) ?_
    exact readHandler_reading hacc hfuel hm (hcs cs List.mem_cons_self)

end Accepting

/-! ### The reassembly theorem -/

/-- A connection just initialised has read nothing. -/
theorem accepted_reading {c : IoConnection P} (hc : c.Sized) (fd io : ℤ) (id : ℕ) (s : σ)
    (alloc : Bool) (hs : WellFramed fs r) :
    Reading fs r (accepted (c.initializeConn fd io id) s alloc (fs.flatten ++ r)) := by
  refine ⟨⟨[], fs, rfl, rfl, ?_⟩, Or.inl ?_, Or.inl rfl⟩
  · refine ⟨rfl, rfl, Option.some_ne_none fd, hc.1, hc.2, Nat.zero_le _, ?_, hs, rfl⟩
    intro a ha
    cases ha
  · show (List.take 0 c.rbuf).length < 4
    rw [List.take_zero]
    decide

/-- Nothing unread and nothing complete in the buffer: no frame is left. -/
theorem Reading.handed_over (hm : Reading fs r m) (hunread : m.unread = []) :
    framesOf m.trace = fs.map sized := by
  obtain ⟨⟨done, todo, hfs, htrace, hopen⟩, hi, -⟩ := hm
  have hstream := hopen.stream
  rw [hunread, List.append_nil] at hstream
  have hnil := Framing.rest_of_incomplete hopen.framed.isFrame hstream hi
  rw [htrace, hfs, hnil, List.append_nil]

end Xkim
