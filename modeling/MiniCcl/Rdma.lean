/-
MiniCcl/Rdma.lean

`TransportRdma` in buffer-pool mode: two connected endpoints.

At each endpoint one thread runs `Send` calls and one runs `Recv` calls (the two
hold different mutexes).  They share a pool of registered buffers and one
completion queue.  The steps of a thread are those of `SendBufferPoolInternal`
and `RecvBufferPoolInternal`, called chunk by chunk from `Send` and `Recv`;
waiting in `PollCompletion` is a step that is possible when the queue is not
empty.  The remaining steps are those of the reliable connection: it reads a
posted send buffer and puts the bytes on the wire (`transmit`), completes the
send at any time after that (`complete`), and writes a message into the oldest
posted receive buffer of the other side (`deliver`).  Verbs calls succeed.

A buffer is a block of bytes.  A length goes to the NIC as the 32-bit
`sge.length`, so it is taken modulo `2 ^ 32`.  The fields of an endpoint from
`posted` on record the history and do not influence any step.
-/
import MiniCcl.Confluence
import MiniCcl.Endian
import MiniCcl.Memory
import MiniCcl.Types

namespace MiniCcl.TransportRdma

/-! ### Data -/

/-- The endpoint that called `Connect`, or the one that called `Accept`. -/
inductive Side
  | connecting
  | accepting
  deriving DecidableEq, Repr

/-- The other endpoint. -/
def Side.peer : Side → Side
  | connecting => accepting
  | accepting => connecting

@[simp] theorem Side.peer_peer (p : Side) : p.peer.peer = p := by cases p <;> rfl

theorem Side.peer_ne (p : Side) : p.peer ≠ p := by cases p <;> exact Side.noConfusion

theorem Side.eq_or_eq_peer (p q : Side) : q = p ∨ q = p.peer := by
  cases p <;> cases q <;> simp [peer]

/-- What `SetBufferPoolConfig` sets: a `size_t` and an `int`. -/
structure PoolConfig where
  bufferSize : ℕ
  bufferCount : ℕ
  bufferSize_lt : bufferSize < 2 ^ 64
  bufferCount_lt : bufferCount < 2 ^ 31

/-- `DEFAULT_BUFFER_SIZE` and `DEFAULT_BUFFER_COUNT` -/
def PoolConfig.default : PoolConfig := ⟨16 * 1024 * 1024, 16, by decide, by decide⟩

/-- `max_payload`: each chunk needs space for the size header. -/
def PoolConfig.maxPayload (c : PoolConfig) : ℕ := sizeSub c.bufferSize 8

/-- The size of the chunk at `offset` of a message: all of it, or `chunk_size`. -/
def chunkSize (maxPayload size offset : ℕ) : ℕ :=
  if size ≤ maxPayload then size else min (size - offset) maxPayload

/-- The `size_t` in network byte order. -/
def htobe64 (size : ℕ) : List UInt8 := toBigEndian 8 size

def be64toh (bytes : List UInt8) : ℕ := ofBigEndian bytes

/-- The inputs of a run: the configurations, and the data of the `k`-th `Send` and
the size of the `k`-th `Recv` of each side. -/
structure Calls where
  config : Side → PoolConfig
  data : Side → ℕ → List UInt8
  size : Side → ℕ → ℕ

/-- The chunk that the `k`-th `Send` of side `p` sends at `offset`. -/
def Calls.sendChunk (x : Calls) (p : Side) (k offset : ℕ) : List UInt8 :=
  ((x.data p k).drop offset).take
    (chunkSize (x.config p).maxPayload (x.data p k).length offset)

/-- The size of the chunk that the `k`-th `Recv` of side `p` expects at `offset`. -/
def Calls.recvSize (x : Calls) (p : Side) (k offset : ℕ) : ℕ :=
  chunkSize (x.config p).maxPayload (x.size p k) offset

/-- A posted send: the first `len` bytes of buffer `id`.  It is the `seq`-th one of
its endpoint. -/
structure SendWr where
  id : ℕ
  len : ℕ
  seq : ℕ
  deriving DecidableEq, Repr

/-- A message on the wire, from the `seq`-th send of its endpoint. -/
structure Message where
  bytes : List UInt8
  seq : ℕ
  deriving DecidableEq, Repr

/-- An entry of the completion queue: of the `seq`-th send, or of the receive that
put the message of the peer's `seq`-th send into buffer `id`. -/
inductive Completion
  | sent (seq : ℕ)
  | received (id seq : ℕ)
  deriving DecidableEq, Repr

namespace Completion

/-- The `wr_id` of an entry, all that the code sees of it: 1 for a send, and for a
receive 2 in the upper and the buffer in the lower 32 bits. -/
def wrId : Completion → ℕ
  | sent _ => 1
  | received id _ => (2 <<< 32) ||| id

/-- What `PollCompletion` returns as buffer ID. -/
def bufferId (c : Completion) : ℕ := c.wrId &&& 0xFFFFFFFF

def IsReceived : Completion → Prop
  | sent _ => False
  | received _ _ => True

theorem bufferId_received {id : ℕ} (h : id < 2 ^ 32) (seq : ℕ) :
    (received id seq).bufferId = id := by
  have hor : (2 <<< 32) ||| id = 2 ^ 32 * 2 + id := by
    rw [Nat.shiftLeft_eq, Nat.mul_comm, Nat.two_pow_add_eq_or_of_lt h]
  rw [bufferId, wrId, hor, show 0xFFFFFFFF = 2 ^ 32 - 1 from rfl,
    Nat.and_two_pow_sub_one_eq_mod, Nat.mul_add_mod, Nat.mod_eq_of_lt h]

end Completion

/-- Where the thread of the `Send` calls is, at `offset` of the current one. -/
inductive SendPc
  | idle
  | alloc (offset : ℕ)
  | stage (offset id : ℕ)
  | post (offset id : ℕ)
  | poll (offset id seq : ℕ)
  | release (offset id : ℕ)
  deriving DecidableEq, Repr

/-- Where the thread of the `Recv` calls is, at `offset` of the current one, with
the bytes `got` so far. -/
inductive RecvPc
  | idle
  | poll (offset : ℕ) (got : List UInt8)
  | copy (offset : ℕ) (got : List UInt8) (id : ℕ)
  | repost (offset : ℕ) (got : List UInt8) (id : ℕ)
  deriving DecidableEq, Repr

/-- One endpoint. -/
structure Endpoint where
  /-- The contents of the buffers. -/
  mem : Mem ℕ UInt8
  /-- `RdmaBuffer::in_use` -/
  inUse : ℕ → Bool
  /-- The buffers of the posted receive WRs, oldest first. -/
  recvQueue : List ℕ
  /-- The posted sends that the NIC has not read yet. -/
  sendQueue : List SendWr
  /-- The sends that have been read and not been completed yet. -/
  pending : List ℕ
  cq : List Completion
  /-- The number of `Send` calls that have returned. -/
  sends : ℕ
  sendPc : SendPc
  /-- The number of `Recv` calls that have returned. -/
  recvs : ℕ
  recvPc : RecvPc
  /-- The number of sends posted so far. -/
  posted : ℕ
  /-- The buffer holds a received message that `Recv` is not done with. -/
  unread : ℕ → Bool
  /-- What each `PollCompletion` of `Send` returned, after the send it waited for. -/
  sendPolls : List (ℕ × Completion)
  /-- What each `PollCompletion` of `Recv` returned. -/
  recvPolls : List Completion
  /-- What the successful `Recv` calls have delivered. -/
  delivered : List (List UInt8)

namespace Endpoint

/-- `AllocateBuffer`: the first buffer that is not in use. -/
def allocateBuffer (c : PoolConfig) (e : Endpoint) : Option ℕ :=
  (List.range c.bufferCount).find? fun id => !e.inUse id

/-- Copy size header and data to a buffer. -/
def stageChunk (e : Endpoint) (id : ℕ) (data : List UInt8) : Mem ℕ UInt8 :=
  (e.mem.write ⟨id, 0, 8⟩ (htobe64 data.length)).write ⟨id, 8, data.length⟩ data

/-- Read the size header of a buffer. -/
def header (e : Endpoint) (id : ℕ) : ℕ := be64toh (e.mem.read ⟨id, 0, 8⟩)

/-- The first `size` bytes after the header. -/
def payload (e : Endpoint) (id size : ℕ) : List UInt8 := e.mem.read ⟨id, 8, size⟩

/-- A buffer with a chunk that the NIC has yet to read. -/
def Staged (e : Endpoint) (id : ℕ) : Prop :=
  (∃ offset, e.sendPc = .post offset id) ∨ ∃ w ∈ e.sendQueue, w.id = id

/-- After `Connect` or `Accept`: `PostRecvWRsForBufferPool` has posted a receive WR
for every buffer. -/
def connected (c : PoolConfig) (mem : Mem ℕ UInt8) : Endpoint where
  mem := mem
  inUse _ := false
  recvQueue := List.range c.bufferCount
  sendQueue := []
  pending := []
  cq := []
  sends := 0
  sendPc := .idle
  recvs := 0
  recvPc := .idle
  posted := 0
  unread _ := false
  sendPolls := []
  recvPolls := []
  delivered := []

end Endpoint

/-- Both endpoints, and what each has on the wire to the other. -/
structure State where
  endpoint : Side → Endpoint
  wire : Side → List Message

def State.connected (x : Calls) (mem : Side → Mem ℕ UInt8) : State where
  endpoint p := .connected (x.config p) (mem p)
  wire _ := []

/-! ### Steps -/

inductive Action
  | startSend
  | alloc
  | stage
  | post
  | sendPoll
  | release
  | startRecv
  | recvPoll
  | copy
  | repost
  | transmit
  | complete
  | deliver
  deriving DecidableEq, Repr

/-- The steps of the endpoint `p` that the other one does not see. -/
inductive Endpoint.Step (x : Calls) (p : Side) (e : Endpoint) : Action → Endpoint → Prop
  | startSend (h : e.sendPc = .idle) : Step x p e .startSend { e with sendPc := .alloc 0 }
  | alloc {offset id : ℕ} (h : e.sendPc = .alloc offset)
      (hid : e.allocateBuffer (x.config p) = some id) :
      Step x p e .alloc
        { e with inUse := Function.update e.inUse id true, sendPc := .stage offset id }
  -- no free buffer: Send returns false
  | allocFail {offset : ℕ} (h : e.sendPc = .alloc offset)
      (hid : e.allocateBuffer (x.config p) = none) :
      Step x p e .alloc { e with sends := e.sends + 1, sendPc := .idle }
  | stage {offset id : ℕ} (h : e.sendPc = .stage offset id)
      (hfit : (x.sendChunk p e.sends offset).length + 8 ≤ (x.config p).bufferSize) :
      Step x p e .stage
        { e with
          mem := e.stageChunk id (x.sendChunk p e.sends offset)
          sendPc := .post offset id }
  -- larger than the buffer: Send releases it and returns false
  | stageFail {offset id : ℕ} (h : e.sendPc = .stage offset id)
      (hfit : ¬ (x.sendChunk p e.sends offset).length + 8 ≤ (x.config p).bufferSize) :
      Step x p e .stage
        { e with
          inUse := Function.update e.inUse id false
          sends := e.sends + 1
          sendPc := .idle }
  | post {offset id : ℕ} (h : e.sendPc = .post offset id) :
      Step x p e .post
        { e with
          sendQueue := e.sendQueue ++
            [⟨id, ((x.sendChunk p e.sends offset).length + 8) % 2 ^ 32, e.posted⟩]
          sendPc := .poll offset id e.posted
          posted := e.posted + 1 }
  -- PollCompletion takes the oldest entry, whatever it is
  | sendPoll {offset id seq : ℕ} {c : Completion} {cq : List Completion}
      (h : e.sendPc = .poll offset id seq) (hcq : e.cq = c :: cq) :
      Step x p e .sendPoll
        { e with
          cq := cq
          sendPc := .release offset id
          sendPolls := e.sendPolls ++ [(seq, c)] }
  | releaseNext {offset id : ℕ} (h : e.sendPc = .release offset id)
      (hmore : offset + (x.sendChunk p e.sends offset).length < (x.data p e.sends).length) :
      Step x p e .release
        { e with
          inUse := Function.update e.inUse id false
          sendPc := .alloc (offset + (x.sendChunk p e.sends offset).length) }
  | releaseLast {offset id : ℕ} (h : e.sendPc = .release offset id)
      (hmore : ¬ offset + (x.sendChunk p e.sends offset).length < (x.data p e.sends).length) :
      Step x p e .release
        { e with
          inUse := Function.update e.inUse id false
          sends := e.sends + 1
          sendPc := .idle }
  | startRecv (h : e.recvPc = .idle) : Step x p e .startRecv { e with recvPc := .poll 0 [] }
  | recvPoll {offset : ℕ} {got : List UInt8} {c : Completion} {cq : List Completion}
      (h : e.recvPc = .poll offset got) (hcq : e.cq = c :: cq)
      (hid : c.bufferId < (x.config p).bufferCount) :
      Step x p e .recvPoll
        { e with
          cq := cq
          recvPc := .copy offset got c.bufferId
          recvPolls := e.recvPolls ++ [c] }
  -- invalid buffer id: Recv returns false
  | recvPollFail {offset : ℕ} {got : List UInt8} {c : Completion} {cq : List Completion}
      (h : e.recvPc = .poll offset got) (hcq : e.cq = c :: cq)
      (hid : ¬ c.bufferId < (x.config p).bufferCount) :
      Step x p e .recvPoll
        { e with
          cq := cq
          recvs := e.recvs + 1
          recvPc := .idle
          recvPolls := e.recvPolls ++ [c] }
  | copy {offset id : ℕ} {got : List UInt8} (h : e.recvPc = .copy offset got id)
      (hsize : e.header id = x.recvSize p e.recvs offset) :
      Step x p e .copy
        { e with
          recvPc := .repost offset (got ++ e.payload id (x.recvSize p e.recvs offset)) id
          unread := Function.update e.unread id false }
  -- size mismatch: Recv returns false, without posting the buffer again
  | copyFail {offset id : ℕ} {got : List UInt8} (h : e.recvPc = .copy offset got id)
      (hsize : ¬ e.header id = x.recvSize p e.recvs offset) :
      Step x p e .copy
        { e with
          recvs := e.recvs + 1
          recvPc := .idle
          unread := Function.update e.unread id false }
  | repostNext {offset id : ℕ} {got : List UInt8} (h : e.recvPc = .repost offset got id)
      (hmore : offset + x.recvSize p e.recvs offset < x.size p e.recvs) :
      Step x p e .repost
        { e with
          recvQueue := e.recvQueue ++ [id]
          recvPc := .poll (offset + x.recvSize p e.recvs offset) got }
  | repostLast {offset id : ℕ} {got : List UInt8} (h : e.recvPc = .repost offset got id)
      (hmore : ¬ offset + x.recvSize p e.recvs offset < x.size p e.recvs) :
      Step x p e .repost
        { e with
          recvQueue := e.recvQueue ++ [id]
          recvs := e.recvs + 1
          recvPc := .idle
          delivered := e.delivered ++ [got] }
  -- the connection completes the oldest send
  | complete {seq : ℕ} {pending : List ℕ} (h : e.pending = seq :: pending) :
      Step x p e .complete { e with pending := pending, cq := e.cq ++ [.sent seq] }

namespace Endpoint

/-- The NIC has read the oldest posted send. -/
def transmitted (e : Endpoint) (w : SendWr) (sendQueue : List SendWr) : Endpoint :=
  { e with sendQueue := sendQueue, pending := e.pending ++ [w.seq] }

/-- The NIC has written a message into the buffer of the oldest posted receive. -/
def received (e : Endpoint) (id : ℕ) (recvQueue : List ℕ) (msg : Message) : Endpoint :=
  { e with
    mem := e.mem.write ⟨id, 0, msg.bytes.length⟩ msg.bytes
    recvQueue := recvQueue
    cq := e.cq ++ [.received id msg.seq]
    unread := Function.update e.unread id true }

end Endpoint

/-- The steps of the two endpoints and of the connection between them. -/
inductive Step (x : Calls) : Lts State (Side × Action)
  | own {s : State} {p : Side} {a : Action} {e : Endpoint}
      (h : Endpoint.Step x p (s.endpoint p) a e) :
      Step x s (p, a) { s with endpoint := Function.update s.endpoint p e }
  | transmit {s : State} {p : Side} {w : SendWr} {sendQueue : List SendWr}
      (h : (s.endpoint p).sendQueue = w :: sendQueue) :
      Step x s (p, .transmit)
        { endpoint := Function.update s.endpoint p ((s.endpoint p).transmitted w sendQueue)
          wire := Function.update s.wire p
            (s.wire p ++ [⟨(s.endpoint p).mem.read ⟨w.id, 0, w.len⟩, w.seq⟩]) }
  -- the message has to fit into the receive buffer
  | deliver {s : State} {p : Side} {msg : Message} {wire : List Message} {id : ℕ}
      {recvQueue : List ℕ} (hwire : s.wire p.peer = msg :: wire)
      (hqueue : (s.endpoint p).recvQueue = id :: recvQueue)
      (hfit : msg.bytes.length ≤ (x.config p).bufferSize % 2 ^ 32) :
      Step x s (p, .deliver)
        { endpoint := Function.update s.endpoint p ((s.endpoint p).received id recvQueue msg)
          wire := Function.update s.wire p.peer wire }

end MiniCcl.TransportRdma
