/-
MsgHandler/Notify.lean

How an IO thread is woken: the queues of sockets and of messages between the
threads of the program and an `IoApp`, with the notify sockets that go with
them.

`IoAppCluster::dispatchConnection` puts one socket into `_sock_queue` and
writes a byte; `IoApp::Impl::newConnection` runs while there is a byte, takes
the whole queue and reads one byte for each socket, but at most 256 and at
least one.  That is a doorbell with single items, and no wake-up is lost
(`newConnection_always_awake`).

`dispatchPushList` also writes one byte, but for a whole list of messages,
whereas `IoApp::Impl::push` still reads one byte for each message.  So it can
read the byte of a list that arrives between the take and the read, and the
list stays behind (`push_oversleeps`); `push_always_awake_iff` says when.
-/
import MsgHandler.Doorbell
import MsgHandler.Heap

namespace Xkim

/-! ### The message queue of an IO thread -/

/-- `ms::MsMessageQueue`; its mutex makes each member atomic. -/
structure MsMessageQueue where
  links : Links Addr

namespace MsMessageQueue

/-- `MsMessageQueue::MsMessageQueue()`. -/
def empty : MsMessageQueue := ⟨Links.empty⟩

/-- `get()`: take everything; it does not block. -/
def get (Q : MsMessageQueue) : Option Addr × MsMessageQueue := (Q.links.head, empty)

/-- `put(v)`: append the chain that starts at `v`. -/
def put (Q : MsMessageQueue) (v : Addr) (H : Heap) : MsMessageQueue × Heap :=
  let r := Q.links.attach H.next v v
  (⟨⟨r.2.head, some (lastNode r.1 H.brk v).1⟩⟩, { H with next := r.1 })

/-- The queue holds the messages `l`, in order. -/
def Rep (Q : MsMessageQueue) (H : Heap) (l : List Addr) : Prop := Links.Rep H.next Q.links l

variable {Q : MsMessageQueue} {H : Heap} {l l' : List Addr} {v : Addr}

/-- **`put` appends the whole chain.** -/
theorem Rep.put (h : Q.Rep H l) (hv : Chain H.next (some v) (v :: l'))
    (hd : ∀ a ∈ l, a ∉ v :: l') (hbrk : ∀ a ∈ v :: l', a < H.brk) :
    (Q.put v H).1.Rep (Q.put v H).2 (l ++ v :: l') :=
  (h.attach_walk hv hd
    ((Nat.le_succ _).trans (length_le_of_nodup_lt (Chain.nodup hv) hbrk))).1

/-- **`get` hands over the chain of all messages**, and leaves none. -/
theorem Rep.get (h : Q.Rep H l) : Chain H.next Q.get.1 l ∧ Q.get.2.Rep H [] :=
  ⟨h.1, Links.rep_empty⟩

end MsMessageQueue

/-! ### Reading the notify socket -/

/-- The number of bytes `newConnection` and `push` read after a round of
`count` elements. -/
def readCount (count : ℕ) : ℕ := if count > 256 then 256 else if count = 0 then 1 else count

theorem readCount_le (count : ℕ) : readCount count ≤ max count 1 := by
  unfold readCount
  split
  · omega
  · split <;> omega

/-! ### Accepted connections -/

/-- `dispatchConnection` hands over a socket with its connection id;
`newConnection` takes the queue and reads. -/
def sockStep : Doorbell (ℤ × ℕ) → Doorbell.Event (ℤ × ℕ) → Option (Doorbell (ℤ × ℕ)) :=
  Doorbell.step (fun sock => [sock]) readCount

/-- **No wake-up for an accepted connection is lost**: in every interleaving
of hand-overs with runs of `newConnection`, whenever none is in progress and
every socket has had its byte written, a socket in the queue means a byte in
the notify socket. -/
theorem newConnection_always_awake (es : List (Doorbell.Event (ℤ × ℕ))) :
    Always sockStep Doorbell.Awake (Doorbell.idle (ℤ × ℕ)) es :=
  Doorbell.always_awake_of_single readCount_le fun _ _ => le_rfl

/-! ### Pushed messages -/

/-- A list of messages for `dispatchPushList`: `MsMessageRouterLocal` only
dispatches slots that are not empty. -/
abbrev PushList := { l : List Addr // l ≠ [] }

/-- `dispatchPushList` hands over a list; `push` takes the queue and
reads. -/
def pushStep : Doorbell Addr → Doorbell.Event PushList → Option (Doorbell Addr) :=
  Doorbell.step Subtype.val readCount

/-- **When no wake-up for pushed messages is lost.**  In a run of
`dispatchPushList` calls and `push` runs, whenever no `push` is in progress
and every list has had its byte written, a message in the queue means a byte
in the notify socket, if and only if every read of `push` leaves a byte,
unless no list has arrived since the queue was taken or the byte of one is
still to be written. -/
theorem push_always_awake_iff (es : List (Doorbell.Event PushList)) :
    Always pushStep Doorbell.Awake (Doorbell.idle Addr) es ↔
      Guarded pushStep (Doorbell.LeavesByte readCount) (Doorbell.idle Addr) es :=
  Doorbell.always_awake_iff es

/-- Two messages in one list are taken; before `push` reads, another list
arrives with its byte.  The two bytes are read for the two messages, and the
third stays in the queue. -/
theorem push_oversleeps :
    runEvents pushStep (Doorbell.idle Addr)
      [.append ⟨[0, 1], by decide⟩, .ring, .take, .append ⟨[2], by decide⟩, .ring, .read] =
    some ⟨[2], 0, 0, none⟩ := by
  decide

end Xkim
